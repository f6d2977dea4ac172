import RobotMachine.Bytes.Codec

/-!
# Sinks

A value is encoded into whatever takes bytes, chunk by chunk. A buffer keeps the bytes, and a
counter only counts them, so that the size of an encoding is known before there is room for it.

* `Shape.encodeTo`: the chunks of a value, written one after the other.
-/

namespace RobotMachine

/-- Something that chunks of bytes are written to. -/
structure Sink (σ : Type) where
  write : σ → List UInt8 → σ

namespace Sink

/-- Keeps what is written behind what was written before. -/
def buffer : Sink (List UInt8) :=
  ⟨fun written chunk => written ++ chunk⟩

/-- Counts the bytes that are written. -/
def counter : Sink Nat :=
  ⟨fun count chunk => count + chunk.length⟩

end Sink

/-- Writes the encoding of a value to a sink. -/
def Shape.encodeTo {σ : Type} (sink : Sink σ) : (s : Shape) → s.Value → σ → σ
  | uint8, v, out => sink.write out (LittleEndian.bytes 1 (UInt8.toNat v))
  | uint16, v, out => sink.write out (LittleEndian.bytes 2 (UInt16.toNat v))
  | uint32, v, out => sink.write out (LittleEndian.bytes 4 (UInt32.toNat v))
  | uint64, v, out | size, v, out => sink.write out (LittleEndian.bytes 8 (UInt64.toNat v))
  | int32, v, out => sink.write out (LittleEndian.bytes 4 (Int32.toUInt32 v).toNat)
  | int64, v, out => sink.write out (LittleEndian.bytes 8 (Int64.toUInt64 v).toNat)
  | bool, v, out => sink.write out [Bool.toUInt8 v]
  | string, v, out =>
    let bytes := (String.toUTF8 v).data.toList
    sink.write (sink.write out (lengthBytes bytes.length)) bytes
  | array _ element, ⟨values, _⟩, out =>
    values.foldl (fun out v => element.encodeTo sink v out) out
  | list element, values, out =>
    List.foldl (fun out v => element.encodeTo sink v out)
      (sink.write out (lengthBytes (List.length values))) values
  | pair first second, v, out => second.encodeTo sink v.2 (first.encodeTo sink v.1 out)

end RobotMachine
