/-!
# Fingerprints

A fingerprint is a 64-bit digest of a byte encoding: every byte is mixed in by an exclusive or and
a multiplication, starting from a fixed basis. The encoding of a value decides which values share a
fingerprint; a collection is digested without regard to order by adding up the fingerprints of its
members.
-/

namespace GraphQuery

/-- Values with a byte encoding that fingerprints digest. -/
class ByteEncoded (α : Type) where
  /-- The bytes that stand for a value. -/
  encode : α → List UInt8

export ByteEncoded (encode)

namespace Fingerprint

/-- The state before any byte is read. -/
def basis : UInt64 := 0xcbf29ce484222325

/-- The multiplier that spreads each byte over the state. -/
def prime : UInt64 := 0x100000001b3

/-- Mixes one byte into the state. -/
def mix (state : UInt64) (byte : UInt8) : UInt64 :=
  (state ^^^ byte.toUInt64) * prime

/-- The `width` low bytes of a word, least significant first. -/
def lowBytes : (width : Nat) → (word : UInt64) → List UInt8
  | 0, _ => []
  | width + 1, word => word.toUInt8 :: lowBytes width (word >>> 8)

/-- A natural number as the eight bytes of a word. -/
def natBytes (n : Nat) : List UInt8 :=
  lowBytes 8 (UInt64.ofNat n)

/-- A text is its UTF-8 bytes and a closing `0xff`, which no UTF-8 text contains. -/
def textBytes (s : String) : List UInt8 :=
  s.toUTF8.toList ++ [0xff]

/-- The written form of a fingerprint: sixteen hexadecimal digits. -/
def hex (n : UInt64) : String :=
  let digits := Nat.toDigits 16 n.toNat
  String.ofList (List.replicate (16 - digits.length) '0' ++ digits)

end Fingerprint

open Fingerprint

instance : ByteEncoded UInt8 := ⟨fun n => [n]⟩
instance : ByteEncoded UInt16 := ⟨fun n => lowBytes 2 n.toUInt64⟩
instance : ByteEncoded UInt32 := ⟨fun n => lowBytes 4 n.toUInt64⟩
instance : ByteEncoded UInt64 := ⟨fun n => lowBytes 8 n⟩
instance : ByteEncoded Int32 := ⟨fun n => encode n.toUInt32⟩
instance : ByteEncoded Int64 := ⟨fun n => encode n.toUInt64⟩
instance : ByteEncoded Bool := ⟨fun b => [if b then 1 else 0]⟩
instance : ByteEncoded String := ⟨textBytes⟩

/-- A sequence is its length, in eight bytes, and then its members. -/
instance {α : Type} [ByteEncoded α] : ByteEncoded (List α) :=
  ⟨fun xs => natBytes xs.length ++ xs.flatMap encode⟩

/-- The digest of one value. -/
def fingerprint {α : Type} [ByteEncoded α] (a : α) : UInt64 :=
  (encode a).foldl mix basis

/-- The digest of a collection: the sum, modulo 2^64, of its members' fingerprints. -/
def unorderedFingerprint {α : Type} [ByteEncoded α] (as : List α) : UInt64 :=
  as.foldr (fun a sum => fingerprint a + sum) 0

section

variable {α : Type} [ByteEncoded α]

@[simp]
theorem unorderedFingerprint_nil : unorderedFingerprint ([] : List α) = 0 := rfl

@[simp]
theorem unorderedFingerprint_cons (a : α) (as : List α) :
    unorderedFingerprint (a :: as) = fingerprint a + unorderedFingerprint as := rfl

@[simp]
theorem unorderedFingerprint_append (as bs : List α) :
    unorderedFingerprint (as ++ bs) = unorderedFingerprint as + unorderedFingerprint bs := by
  induction as with
  | nil => simp
  | cons a as ih => simp [ih, UInt64.add_assoc]

/-- The order of a collection does not show in its fingerprint. -/
theorem unorderedFingerprint_perm {as bs : List α} (h : as.Perm bs) :
    unorderedFingerprint as = unorderedFingerprint bs := by
  induction h with
  | nil => rfl
  | cons _ _ ih => simp [ih]
  | swap a b rest =>
    simp only [unorderedFingerprint_cons, ← UInt64.add_assoc]
    rw [UInt64.add_comm (fingerprint b)]
  | trans _ _ ih₁ ih₂ => exact ih₁.trans ih₂

end

end GraphQuery
