import IntervalAutomata.Binary.Header

/-!
The hash that stored automata carry: the 32-bit cyclic redundancy check with reversed polynomial
`0xEDB88320`, all bits set at the start and all bits inverted at the end, bit by bit from the least
significant one.
-/

namespace IntervalAutomata.Binary

def crcBit (crc : UInt32) : UInt32 :=
  if crc &&& 1 = 1 then crc >>> 1 ^^^ 0xEDB88320 else crc >>> 1

def crcByte (crc : UInt32) (byte : UInt8) : UInt32 :=
  crcBit (crcBit (crcBit (crcBit (crcBit (crcBit (crcBit (crcBit (crc ^^^ byte.toUInt32))))))))

def checksum : Hash := fun bytes => ~~~ bytes.foldl crcByte 0xFFFFFFFF

end IntervalAutomata.Binary
