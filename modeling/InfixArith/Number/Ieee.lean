import InfixArith.Number
import InfixArith.Numeral.Word
/-!
# The two floating-point number types

Both widths compute with the machine's arithmetic. They read and write number words through their
binary formats, so that a word is rounded once and directly to the width it is read at.
-/

namespace InfixArith

namespace BinaryFormat

variable (format : BinaryFormat)

def readBits? (word : String) : Option Nat := (Numeral.ofWord? word).map format.encode

def writeBits (bits : Nat) : String := (format.decode bits).write

end BinaryFormat

instance : Number Float where
  zero := 0
  read? word :=
    (BinaryFormat.double.readBits? word).map fun bits => Float.ofBits (UInt64.ofNat bits)
  write value := BinaryFormat.double.writeBits value.toBits.toNat

instance : Number Float32 where
  zero := 0
  read? word :=
    (BinaryFormat.single.readBits? word).map fun bits => Float32.ofBits (UInt32.ofNat bits)
  write value := BinaryFormat.single.writeBits value.toBits.toNat

end InfixArith
