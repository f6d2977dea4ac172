import RobotMachine.Assembly.Layout

/-!
# Symbols during the layout

A symbol is defined once, and its value changes only while it waits for the next data. So what has
stopped waiting, or never waited, keeps its value to the end.

* `Layout.Keeps`: the symbols of a layout that are known to keep their values.
-/

namespace RobotMachine

/-- In a list without repeated keys every entry is found. -/
theorem lookup_eq_some_of_mem {β : Type} {entries : List (String × β)} {name : String} {v : β}
    (nodup : (entries.map (·.1)).Nodup) (member : (name, v) ∈ entries) :
    entries.lookup name = some v := by
  induction entries with
  | nil => cases member
  | cons entry entries ih =>
    rw [List.map_cons, List.nodup_cons] at nodup
    rcases List.mem_cons.mp member with rfl | member
    · exact List.lookup_cons_self
    · have other : (name == entry.1) = false := by
        rw [beq_eq_false_iff_ne]
        intro same
        subst same
        exact nodup.1 (List.mem_map.mpr ⟨_, member, rfl⟩)
      rw [List.lookup_cons, other]
      exact ih nodup.2 member

namespace SymbolTable

variable {table : SymbolTable} {name : String}

theorem not_mem_keys_of_isTaken_eq_false (free : table.isTaken name = false) :
    name ∉ table.map (·.1) := by
  intro member
  obtain ⟨entry, found, rfl⟩ := List.mem_map.mp member
  simp only [isTaken, Bool.or_eq_false_iff, Option.isSome_eq_false_iff,
    Option.isNone_iff_eq_none] at free
  have differs := List.lookup_eq_none_iff.mp free.2 entry found
  rw [bne_self_eq_false] at differs
  cases differs

@[simp]
theorem keys_move (table : SymbolTable) (names : List String) (v : Int) :
    (table.move names v).map (·.1) = table.map (·.1) := by
  rw [move, List.map_map]
  rfl

theorem mem_move_of_not_mem {names : List String} {old : Int} (member : (name, old) ∈ table)
    (settled : name ∉ names) (v : Int) : (name, old) ∈ table.move names v :=
  List.mem_map.mpr ⟨(name, old), member, by simp only [if_neg settled]⟩

end SymbolTable

namespace Layout

/-- No symbol is defined twice, only defined symbols wait, and the listed symbols have their
values and do not wait. -/
structure Keeps (values : String → Int → Prop) (l : Layout) : Prop where
  nodup : (l.symbols.map (·.1)).Nodup
  waiting_sub : ∀ name ∈ l.waiting, name ∈ l.symbols.map (·.1)
  value_mem : ∀ name v, values name v → (name, v) ∈ l.symbols ∧ name ∉ l.waiting

namespace Keeps

variable {values : String → Int → Prop} {l l' : Layout}

theorem empty : Keeps (fun _ _ => False) {} :=
  ⟨List.nodup_nil, nofun, nofun⟩

theorem of_eq (h : l.Keeps values) (symbols : l'.symbols = l.symbols)
    (waiting : l'.waiting = l.waiting) : l'.Keeps values := by
  obtain ⟨nodup, waitingSub, valueMem⟩ := h
  constructor
  · rwa [symbols]
  · rwa [symbols, waiting]
  · rwa [symbols, waiting]

/-- A new symbol does not wait and leaves the others alone. -/
theorem define (h : l.Keeps values) {name : String} (free : l.symbols.isTaken name = false)
    (v : Int) :
    Keeps (fun n a => values n a ∨ n = name ∧ a = v)
      { l with symbols := (name, v) :: l.symbols } := by
  have fresh := SymbolTable.not_mem_keys_of_isTaken_eq_false free
  refine ⟨List.nodup_cons.mpr ⟨fresh, h.nodup⟩, fun n waits => ?_, fun n a listed => ?_⟩
  · exact List.mem_cons_of_mem _ (h.waiting_sub n waits)
  · rcases listed with listed | ⟨rfl, rfl⟩
    · obtain ⟨member, settled⟩ := h.value_mem n a listed
      exact ⟨List.mem_cons_of_mem _ member, settled⟩
    · exact ⟨List.mem_cons_self, fun waits => fresh (h.waiting_sub n waits)⟩

/-- A new symbol that waits leaves the others alone. -/
theorem defineWaiting (h : l.Keeps values) {name : String}
    (free : l.symbols.isTaken name = false) (v : Int) :
    Keeps values
      { l with symbols := (name, v) :: l.symbols, waiting := name :: l.waiting } := by
  have fresh := SymbolTable.not_mem_keys_of_isTaken_eq_false free
  refine ⟨List.nodup_cons.mpr ⟨fresh, h.nodup⟩, fun n waits => ?_, fun n a listed => ?_⟩
  · rcases List.mem_cons.mp waits with rfl | waits
    · exact List.mem_cons_self
    · exact List.mem_cons_of_mem _ (h.waiting_sub n waits)
  · obtain ⟨member, settled⟩ := h.value_mem n a listed
    refine ⟨List.mem_cons_of_mem _ member, fun waits => ?_⟩
    -- a listed symbol is defined already, so it is not the new one that waits
    rcases List.mem_cons.mp waits with rfl | waits
    · exact fresh (List.mem_map_of_mem member)
    · exact settled waits

/-- Letting the waiting labels stand, where they are or where the data goes, keeps all others. -/
theorem settleWaiting (h : l.Keeps values) (directive : Option Directive) :
    (l.settleWaiting directive).Keeps values := by
  unfold Layout.settleWaiting
  split
  · exact h
  · split
    · refine ⟨?_, nofun, fun n a listed => ?_⟩
      · rw [SymbolTable.keys_move]
        exact h.nodup
      · obtain ⟨member, settled⟩ := h.value_mem n a listed
        exact ⟨SymbolTable.mem_move_of_not_mem member settled _, List.not_mem_nil⟩
    · exact ⟨h.nodup, nofun, fun n a listed => ⟨(h.value_mem n a listed).1, List.not_mem_nil⟩⟩

theorem weaken (h : l.Keeps values) {values' : String → Int → Prop}
    (sub : ∀ name v, values' name v → values name v) : l.Keeps values' :=
  ⟨h.nodup, h.waiting_sub, fun name v listed => h.value_mem name v (sub name v listed)⟩

theorem lookup_eq (h : l.Keeps values) {name : String} {v : Int} (listed : values name v) :
    l.symbols.lookup name = some v :=
  lookup_eq_some_of_mem h.nodup (h.value_mem name v listed).1

end Keeps

end Layout

end RobotMachine
