import Mathlib.Tactic

namespace RaftKV.Codec.LittleEndian

/-- The `w` low bytes of `n`, least significant first. -/
def leBytes : Nat → Nat → List UInt8
  | 0, _ => []
  | w + 1, n => UInt8.ofNat (n % 256) :: leBytes w (n / 256)

/-- The number a byte string spells, least significant byte first. -/
def leNat : List UInt8 → Nat
  | [] => 0
  | b :: bs => b.toNat + 256 * leNat bs

@[simp] theorem length_leBytes (w n : Nat) : (leBytes w n).length = w := by
  induction w generalizing n with
  | zero => rfl
  | succ w ih => simp [leBytes, ih]

theorem leNat_leBytes (w n : Nat) : leNat (leBytes w n) = n % 256 ^ w := by
  induction w generalizing n with
  | zero => simp [leBytes, leNat, Nat.mod_one]
  | succ w ih =>
      have hbyte : (UInt8.ofNat (n % 256)).toNat = n % 256 := by
        rw [UInt8.toNat_ofNat']
        omega
      rw [leBytes, leNat, ih, hbyte, pow_succ', Nat.mod_mul]

theorem leNat_lt (b : List UInt8) : leNat b < 256 ^ b.length := by
  induction b with
  | nil => simp [leNat]
  | cons a b ih =>
      have ha : a.toNat < 256 := a.toNat_lt
      rw [leNat, List.length_cons, pow_succ]
      omega

theorem leNat_leBytes_of_lt {w n : Nat} (h : n < 256 ^ w) : leNat (leBytes w n) = n := by
  rw [leNat_leBytes, Nat.mod_eq_of_lt h]

theorem leBytes_leNat (b : List UInt8) : leBytes b.length (leNat b) = b := by
  induction b with
  | nil => rfl
  | cons a b ih =>
      have ha : a.toNat < 256 := a.toNat_lt
      have hbyte : UInt8.ofNat (leNat (a :: b) % 256) = a := by
        rw [leNat, Nat.add_mul_mod_self_left, Nat.mod_eq_of_lt ha, UInt8.ofNat_toNat]
      have hrest : leNat (a :: b) / 256 = leNat b := by
        rw [leNat]
        omega
      rw [List.length_cons, leBytes, hbyte, hrest, ih]

theorem leBytes_leNat_take {w : Nat} {b : List UInt8} (h : w ≤ b.length) :
    leBytes w (leNat (b.take w)) = b.take w := by
  have hlen : (b.take w).length = w := by
    rw [List.length_take, min_eq_left h]
  have hb := leBytes_leNat (b.take w)
  rwa [hlen] at hb

theorem leNat_take_append_mod (w n : Nat) (rest : List UInt8) :
    leNat ((leBytes w n ++ rest).take w) = n % 256 ^ w := by
  rw [List.take_append_of_le_length (by simp), List.take_of_length_le (by simp), leNat_leBytes]

theorem leNat_take_append {w n : Nat} (h : n < 256 ^ w) (rest : List UInt8) :
    leNat ((leBytes w n ++ rest).take w) = n := by
  rw [leNat_take_append_mod, Nat.mod_eq_of_lt h]

theorem drop_leBytes_append (w n : Nat) (rest : List UInt8) :
    (leBytes w n ++ rest).drop w = rest := by
  rw [List.drop_append_of_le_length (by simp), List.drop_of_length_le (by simp),
    List.nil_append]

end RaftKV.Codec.LittleEndian
