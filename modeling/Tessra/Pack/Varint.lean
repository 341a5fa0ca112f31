import Tessra.Core.Id

namespace Tessra.Pack

open Tessra.Core

/-! Numbers of variable length: seven bits a byte, the low ones first, and the high bit of
every byte but the last. -/

inductive Error
  | unexpectedEof
  | invalidData (message : String)
  | pack (message : String)
deriving DecidableEq

/-- How reading ends without a result. -/
inductive Stop
  | failed (error : Error)
  | panicked (message : String)
deriving DecidableEq

def writeVarint (n : ℕ) : Bytes :=
  if n / 128 = 0 then [Byte.ofNat (n % 128)]
  else Byte.ofNat (n % 128 + 128) :: writeVarint (n / 128)
termination_by n

/-- The rest of a number, of which the bits up to `shift` are read. -/
def readVarint (n shift : ℕ) : Bytes → Except Stop (ℕ × Bytes)
  | [] => .error (.failed .unexpectedEof)
  | b :: rest =>
      let n := n ||| (b.val % 128) <<< shift % 2 ^ 64
      if b.val < 128 then .ok (n, rest)
      else if 63 < shift + 7 then .error (.failed (.invalidData "varint too long"))
      else readVarint n (shift + 7) rest

/-- Bytes of which the last alone has no high bit. -/
inductive Terminated : Bytes → Prop
  | last {b : Byte} (h : b.val < 128) : Terminated [b]
  | more {b : Byte} {v : Bytes} (h : 128 ≤ b.val) (hv : Terminated v) : Terminated (b :: v)

/-- The number the low bits of bytes spell. -/
def value : Bytes → ℕ
  | [] => 0
  | b :: v => b.val % 128 + 128 * value v

/-- Bytes that spell their number in the fewest, and one of 64 bits. -/
structure Shortest (v : Bytes) : Prop where
  last : v.getLast? = some 0 → v = [0]
  fits : value v < 2 ^ 64

variable {n m k : ℕ} {b : Byte} {v bytes rest : Bytes}

section Reading

theorem or_shift (hn : n < 2 ^ (7 * k)) (hk : k ≤ 9) :
    n ||| (b.val % 128) <<< (7 * k) % 2 ^ 64 = (n + 2 ^ (7 * k) * (b.val % 128)) % 2 ^ 64 := by
  have hsplit : 2 ^ 64 = 2 ^ (7 * k) * 2 ^ (64 - 7 * k) := by
    rw [← Nat.pow_add]
    congr 1
    omega
  have hmod : (b.val % 128) <<< (7 * k) % 2 ^ 64 =
      2 ^ (7 * k) * (b.val % 128 % 2 ^ (64 - 7 * k)) := by
    rw [Nat.shiftLeft_eq, Nat.mul_comm, hsplit, Nat.mul_mod_mul_left]
  rw [hmod, Nat.or_comm, ← Nat.two_pow_add_eq_or_of_lt hn, hsplit, Nat.mod_mul,
    Nat.add_mul_mod_self_left, Nat.mod_eq_of_lt hn, Nat.add_mul_div_left _ _ (by positivity),
    Nat.div_eq_of_lt hn, Nat.zero_add]
  exact Nat.add_comm _ _

theorem readVarint_terminated (rest : Bytes) (hv : Terminated v) (hn : n < 2 ^ (7 * k))
    (hlength : k + v.length ≤ 10) :
    readVarint n (7 * k) (v ++ rest) = .ok ((n + 2 ^ (7 * k) * value v) % 2 ^ 64, rest) := by
  induction hv generalizing n k with
  | @last b h =>
      have hk : k ≤ 9 := Nat.le_of_succ_le_succ hlength
      simp only [List.singleton_append, readVarint, if_pos h, or_shift hn hk, value,
        Nat.mul_zero, Nat.add_zero]
  | @more b v h hv ih =>
      have hlt : v.length ≠ 0 := by cases hv <;> simp
      rw [List.length_cons] at hlength
      have hsmall : n + 2 ^ (7 * k) * (b.val % 128) < 2 ^ (7 * (k + 1)) := by
        have hb := Nat.mod_lt b.val (show 0 < 128 by omega)
        have hpow : 2 ^ (7 * (k + 1)) = 2 ^ (7 * k) * 128 := by
          rw [Nat.mul_add, Nat.pow_add]
        have hmul := Nat.mul_le_mul_left (2 ^ (7 * k)) (Nat.succ_le_of_lt hb)
        rw [Nat.mul_succ] at hmul
        omega
      have hbound : 2 ^ (7 * (k + 1)) ≤ 2 ^ 64 := Nat.pow_le_pow_right (by omega) (by omega)
      rw [List.cons_append, readVarint, if_neg (by omega), if_neg (by omega),
        or_shift hn (by omega), Nat.mod_eq_of_lt (hsmall.trans_le hbound), ← Nat.mul_succ,
        ih hsmall (by omega), value]
      congr 3
      rw [Nat.mul_succ, Nat.pow_add]
      ring

theorem terminated_of_readVarint (h : readVarint n (7 * k) bytes = .ok (m, rest)) (hk : k ≤ 9) :
    ∃ v, bytes = v ++ rest ∧ Terminated v ∧ k + v.length ≤ 10 := by
  induction bytes generalizing n k with
  | nil => cases h
  | cons b bytes ih =>
      rw [readVarint] at h
      split_ifs at h with hb hlong
      · cases h
        exact ⟨[b], rfl, .last hb, Nat.succ_le_succ hk⟩
      · obtain ⟨v, rfl, hv, hlength⟩ := ih (k := k + 1) h (by omega)
        exact ⟨b :: v, rfl, .more (by omega) hv, by rw [List.length_cons]; omega⟩

/-- What the reader takes for a number. -/
theorem readVarint_eq_ok_iff : readVarint 0 0 bytes = .ok (m, rest) ↔
    ∃ v, bytes = v ++ rest ∧ Terminated v ∧ v.length ≤ 10 ∧ m = value v % 2 ^ 64 := by
  constructor
  · intro h
    obtain ⟨v, rfl, hv, hlength⟩ := terminated_of_readVarint (k := 0) h (by omega)
    have hread := readVarint_terminated rest (k := 0) (n := 0) hv (by simp) hlength
    rw [h, Except.ok.injEq, Prod.mk.injEq] at hread
    exact ⟨v, rfl, hv, by omega, by simpa using hread.1⟩
  · rintro ⟨v, rfl, hv, hlength, rfl⟩
    have hread := readVarint_terminated rest (k := 0) (n := 0) hv (by simp) (by omega)
    simpa using hread

theorem readVarint_not_panicked {n shift : ℕ} {message : String} :
    readVarint n shift bytes ≠ .error (.panicked message) := by
  induction bytes generalizing n shift with
  | nil => exact fun h => by cases h
  | cons b bytes ih =>
      rw [readVarint]
      split_ifs
      · exact fun h => by cases h
      · exact fun h => by cases h
      · exact ih

end Reading

section Writing

theorem val_ofNat (h : n < 256) : (Byte.ofNat n).val = n := Nat.mod_eq_of_lt h

theorem terminated_writeVarint (n : ℕ) : Terminated (writeVarint n) := by
  induction n using writeVarint.induct with
  | case1 n h =>
      rw [writeVarint, if_pos h]
      exact .last (by rw [val_ofNat (by omega)]; omega)
  | case2 n h ih =>
      rw [writeVarint, if_neg h]
      exact .more (by rw [val_ofNat (by omega)]; omega) ih

theorem value_writeVarint (n : ℕ) : value (writeVarint n) = n := by
  induction n using writeVarint.induct with
  | case1 n h =>
      rw [writeVarint, if_pos h, value, value, val_ofNat (by omega)]
      omega
  | case2 n h ih =>
      rw [writeVarint, if_neg h, value, ih, val_ofNat (by omega)]
      omega

theorem length_writeVarint (h : n < 2 ^ (7 * (k + 1))) : (writeVarint n).length ≤ k + 1 := by
  induction k generalizing n with
  | zero =>
      rw [writeVarint, if_pos (by omega)]
      exact le_refl _
  | succ k ih =>
      rw [writeVarint]
      split_ifs with hn
      · exact Nat.succ_le_succ (Nat.zero_le _)
      · have hlt : n / 128 < 2 ^ (7 * (k + 1)) := by
          rw [Nat.div_lt_iff_lt_mul (by omega)]
          rw [Nat.mul_succ, Nat.pow_add] at h
          exact h
        exact Nat.succ_le_succ (ih hlt)

theorem getLast_writeVarint (h : (writeVarint n).getLast? = some 0) : n = 0 := by
  induction n using writeVarint.induct with
  | case1 n hn =>
      rw [writeVarint, if_pos hn, List.getLast?_singleton, Option.some.injEq] at h
      have hval := congrArg Fin.val h
      rw [val_ofNat (by omega)] at hval
      change n % 128 = 0 at hval
      omega
  | case2 n hn ih =>
      have hne : writeVarint (n / 128) ≠ [] := by
        intro hnil
        have hv := terminated_writeVarint (n / 128)
        rw [hnil] at hv
        cases hv
      rw [writeVarint, if_neg hn, List.getLast?_cons_of_ne_nil hne] at h
      exact absurd (ih h) hn

theorem shortest_writeVarint (h : n < 2 ^ 64) : Shortest (writeVarint n) := by
  refine ⟨fun hlast => ?_, by rwa [value_writeVarint]⟩
  rw [getLast_writeVarint hlast, writeVarint]
  rfl

theorem value_pos (hv : Terminated v) (hlast : v.getLast? ≠ some 0) : 0 < value v := by
  induction hv with
  | @last b h =>
      have hb : b.val ≠ 0 := fun hzero => hlast (by
        rw [List.getLast?_singleton, Option.some.injEq]
        exact Fin.ext hzero)
      rw [value, value]
      omega
  | @more b v h hv ih =>
      have hne : v ≠ [] := by cases hv <;> simp
      rw [List.getLast?_cons_of_ne_nil hne] at hlast
      have hpos := ih hlast
      rw [value]
      omega

theorem writeVarint_value (hv : Terminated v) (h : v.getLast? = some 0 → v = [0]) :
    writeVarint (value v) = v := by
  induction hv with
  | @last b hb =>
      rw [value, value, writeVarint, if_pos (by omega)]
      congr 1
      exact Fin.ext (by rw [val_ofNat (by omega)]; omega)
  | @more b v hb hv ih =>
      have hne : v ≠ [] := by cases hv <;> simp
      have hlast : v.getLast? ≠ some 0 := by
        intro hzero
        rw [List.getLast?_cons_of_ne_nil hne] at h
        exact hne (List.cons.inj (h hzero)).2
      have hpos := value_pos hv hlast
      have hlt := b.isLt
      rw [value, writeVarint, if_neg (by omega), show (b.val % 128 + 128 * value v) / 128 =
        value v by omega, ih (fun hzero => absurd hzero hlast)]
      congr 1
      exact Fin.ext (by rw [val_ofNat (by omega)]; omega)

/-- A number is written as it was read when it was in its shortest form. -/
theorem writeVarint_eq_iff (hv : Terminated v) :
    writeVarint (value v % 2 ^ 64) = v ↔ Shortest v := by
  constructor
  · intro h
    rw [← h]
    exact shortest_writeVarint (Nat.mod_lt _ (by positivity))
  · intro h
    rw [Nat.mod_eq_of_lt h.fits, writeVarint_value hv h.last]

end Writing

end Tessra.Pack
