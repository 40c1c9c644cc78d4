import RecordQuery.Plan.Explain

/-!
# `RecordQuery.Plan.Fingerprint`: a number that identifies a plan

The explanation tree is written as bytes: for each node the name of the operation, the names
and texts of its properties, the number of inputs in eight bytes, lowest first, and then the
inputs. The fingerprint is the 64-bit `XXH64` digest of these bytes with seed zero.
-/

set_option autoImplicit false

namespace RecordQuery

namespace XXH64

/-- The first multiplier of the digest. -/
def prime1 : UInt64 := 0x9E3779B185EBCA87

/-- The second multiplier. -/
def prime2 : UInt64 := 0xC2B2AE3D27D4EB4F

/-- The third multiplier. -/
def prime3 : UInt64 := 0x165667B19E3779F9

/-- The fourth multiplier. -/
def prime4 : UInt64 := 0x85EBCA77C2B2AE63

/-- The fifth multiplier. -/
def prime5 : UInt64 := 0x27D4EB2F165667C5

/-- The word with its upper bits moved round to the lower end. -/
def rotateLeft (word amount : UInt64) : UInt64 :=
  (word <<< amount) ||| (word >>> (64 - amount))

/-- The number that some bytes spell, lowest byte first. -/
def wordOf : List UInt8 → UInt64
  | [] => 0
  | b :: bs => b.toUInt64 ||| (wordOf bs <<< 8)

/-- One input word mixed into a lane. -/
def mix (lane word : UInt64) : UInt64 := rotateLeft (lane + word * prime2) 31 * prime1

/-- One lane merged into the digest. -/
def mergeLane (digest lane : UInt64) : UInt64 := (digest ^^^ mix 0 lane) * prime1 + prime4

/-- The four lanes that blocks of 32 bytes are mixed into, one for each eight bytes. -/
structure Lanes where
  /-- The lane of the first eight bytes. -/
  a : UInt64
  /-- The lane of the second eight bytes. -/
  b : UInt64
  /-- The lane of the third eight bytes. -/
  c : UInt64
  /-- The lane of the last eight bytes. -/
  d : UInt64

/-- The lanes before the first block. -/
def Lanes.start : Lanes := ⟨prime1 + prime2, prime2, 0, 0 - prime1⟩

/-- The lanes after one block. -/
def Lanes.block (lanes : Lanes) (bytes : List UInt8) : Lanes :=
  ⟨mix lanes.a (wordOf (bytes.take 8)),
    mix lanes.b (wordOf ((bytes.drop 8).take 8)),
    mix lanes.c (wordOf ((bytes.drop 16).take 8)),
    mix lanes.d (wordOf ((bytes.drop 24).take 8))⟩

/-- The lanes joined into one word. -/
def Lanes.join (lanes : Lanes) : UInt64 :=
  let sum := rotateLeft lanes.a 1 + rotateLeft lanes.b 7 + rotateLeft lanes.c 12 +
    rotateLeft lanes.d 18
  mergeLane (mergeLane (mergeLane (mergeLane sum lanes.a) lanes.b) lanes.c) lanes.d

/-- Mixes every whole block into the lanes, and returns the bytes that are left. -/
def blocks (lanes : Lanes) (bytes : List UInt8) : Lanes × List UInt8 :=
  if 32 ≤ bytes.length then blocks (lanes.block bytes) (bytes.drop 32) else (lanes, bytes)
termination_by bytes.length
decreasing_by simp only [List.length_drop]; omega

/-- Mixes the last bytes, fewer than a block, into the digest: eight at a time, then four,
then one by one. -/
def finishBytes (digest : UInt64) (bytes : List UInt8) : UInt64 :=
  if 8 ≤ bytes.length then
    let word := mix 0 (wordOf (bytes.take 8))
    finishBytes (rotateLeft (digest ^^^ word) 27 * prime1 + prime4) (bytes.drop 8)
  else if 4 ≤ bytes.length then
    let word := wordOf (bytes.take 4) * prime1
    finishBytes (rotateLeft (digest ^^^ word) 23 * prime2 + prime3) (bytes.drop 4)
  else
    bytes.foldl (fun digest b => rotateLeft (digest ^^^ (b.toUInt64 * prime5)) 11 * prime1) digest
termination_by bytes.length
decreasing_by all_goals simp only [List.length_drop]; omega

/-- Spreads every bit over the whole digest. -/
def avalanche (digest : UInt64) : UInt64 :=
  let d := (digest ^^^ (digest >>> 33)) * prime2
  let d := (d ^^^ (d >>> 29)) * prime3
  d ^^^ (d >>> 32)

/-- The digest of some bytes with seed zero. -/
def digest (bytes : List UInt8) : UInt64 :=
  let (lanes, rest) := blocks .start bytes
  let joined := if bytes.length < 32 then prime5 else lanes.join
  avalanche (finishBytes (joined + UInt64.ofNat bytes.length) rest)

end XXH64

/-- The bytes of a text in UTF-8. -/
def textBytes (s : String) : List UInt8 := s.toUTF8.toList

/-- A number below `2 ^ 64` in eight bytes, lowest first. -/
def countBytes (n : Nat) : List UInt8 :=
  (List.range 8).map fun i => UInt8.ofNat (n >>> (8 * i))

namespace ExplainNode

mutual

/-- The bytes that stand for a tree. -/
def encode : ExplainNode → List UInt8
  | node op props inputs =>
      textBytes op ++ props.flatMap (fun p => textBytes p.name ++ textBytes p.value) ++
        countBytes inputs.length ++ encodeAll inputs

/-- The bytes that stand for some trees, one after the other. -/
def encodeAll : List ExplainNode → List UInt8
  | [] => []
  | n :: ns => encode n ++ encodeAll ns

end

/-- The digest of the tree. -/
def fingerprint (node : ExplainNode) : UInt64 := XXH64.digest node.encode

end ExplainNode

/-- The sixteen hexadecimal digits of a word, lower case. -/
def hexWord (word : UInt64) : String :=
  let digits := Nat.toDigits 16 word.toNat
  String.ofList (List.replicate (16 - digits.length) '0' ++ digits)

end RecordQuery
