import RaftKV.Codec.LittleEndian

namespace RaftKV.Codec.Slices

open Codec.LittleEndian

variable {α : Type}

/-- The slice `l[i:]`. -/
def sliceFrom (l : List α) (i : Nat) : Option (List α) :=
  if i ≤ l.length then some (l.drop i) else none

/-- The slice `l[:j]`. -/
def sliceTo (l : List α) (j : Nat) : Option (List α) :=
  if j ≤ l.length then some (l.take j) else none

/-- A difference of unsigned numbers that does not wrap around. -/
def minus (a b : Nat) : Option Nat :=
  if b ≤ a then some (a - b) else none

def readNat (w : Nat) (b : List UInt8) : Option Nat :=
  if w ≤ b.length then some (leNat (b.take w)) else none

variable {l : List α} {b : List UInt8} {i j : Nat}

theorem sliceFrom_of_le (h : i ≤ l.length) : sliceFrom l i = some (l.drop i) :=
  if_pos h

theorem sliceTo_of_le (h : j ≤ l.length) : sliceTo l j = some (l.take j) :=
  if_pos h

theorem minus_of_le (h : j ≤ i) : minus i j = some (i - j) :=
  if_pos h

theorem readNat_of_le {w : Nat} (h : w ≤ b.length) : readNat w b = some (leNat (b.take w)) :=
  if_pos h

theorem eq_leBytes_append {w : Nat} (h : w ≤ b.length) :
    b = leBytes w (leNat (b.take w)) ++ b.drop w := by
  rw [leBytes_leNat_take h, List.take_append_drop]

theorem leNat_take_lt (w : Nat) (h : w ≤ b.length) : leNat (b.take w) < 256 ^ w := by
  have hlt := leNat_lt (b.take w)
  rwa [List.length_take, min_eq_left h] at hlt

theorem toNat_ofNat_leNat (h : 8 ≤ b.length) :
    (UInt64.ofNat (leNat (b.take 8))).toNat = leNat (b.take 8) := by
  have hlt : leNat (b.take 8) < 2 ^ 64 := leNat_take_lt 8 h
  rw [UInt64.toNat_ofNat', Nat.mod_eq_of_lt hlt]

end RaftKV.Codec.Slices
