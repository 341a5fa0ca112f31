import Mathlib.Data.List.Basic
import Tessra.Core.Id

namespace Tessra.Daemon

open Tessra.Core

/-! The bytes that a snapshot stores for a text, where line ends are to be plain. -/

def isText (bytes : Bytes) : Bool := !(bytes.take 8192).any (· = 0)

/-- Leave out each carriage return that a line feed follows. -/
def normalizeEol : Bytes → Bytes
  | [] => []
  | [b] => [b]
  | b :: c :: rest => if b = 13 ∧ c = 10 then normalizeEol (c :: rest)
      else b :: normalizeEol (c :: rest)

/-- What is stored of a file's bytes. -/
def stored (eol : String) (bytes : Bytes) : Bytes :=
  if eol = "lf" ∧ isText bytes then normalizeEol bytes else bytes

section Normal

variable {bytes rest : Bytes} {b c : Byte}

/-- The pair of a carriage return and a line feed occurs. -/
def HasPair (bytes : Bytes) : Prop := [13, 10] <:+: bytes

/-- The pair occurs behind another carriage return. -/
def HasDouble (bytes : Bytes) : Prop := [13, 13, 10] <:+: bytes

theorem hasPair_cons : HasPair (b :: rest) ↔ b = 13 ∧ rest.head? = some 10 ∨ HasPair rest := by
  rw [HasPair, HasPair, List.infix_cons_iff, List.cons_prefix_cons, @eq_comm _ 13]
  cases rest with
  | nil => simp
  | cons c rest => simp [@eq_comm _ 10 c]

theorem hasDouble_cons_cons : HasDouble (b :: c :: rest) ↔
    b = 13 ∧ c = 13 ∧ rest.head? = some 10 ∨ HasDouble (c :: rest) := by
  rw [HasDouble, HasDouble, List.infix_cons_iff (a := b), List.cons_prefix_cons,
    List.cons_prefix_cons, @eq_comm _ 13 b, @eq_comm _ 13 c]
  cases rest with
  | nil => simp
  | cons d rest => simp [@eq_comm _ 10 d]

theorem length_normalizeEol_le (bytes : Bytes) : (normalizeEol bytes).length ≤ bytes.length := by
  induction bytes using normalizeEol.induct with
  | case1 => exact le_rfl
  | case2 b => exact le_rfl
  | case3 b c rest hpair ih =>
      rw [normalizeEol, if_pos hpair]
      exact ih.trans (Nat.le_succ _)
  | case4 b c rest hpair ih =>
      rw [normalizeEol, if_neg hpair]
      exact Nat.succ_le_succ ih

/-- A text without the pair stays as it is, and no other does. -/
theorem normalizeEol_eq_self : normalizeEol bytes = bytes ↔ ¬ HasPair bytes := by
  induction bytes using normalizeEol.induct with
  | case1 => simp [normalizeEol, HasPair]
  | case2 b => simp [normalizeEol, HasPair, List.infix_cons_iff]
  | case3 b c rest hpair ih =>
      rw [normalizeEol, if_pos hpair, hasPair_cons]
      refine iff_of_false (fun heq => ?_) (fun h => h (Or.inl ⟨hpair.1, congrArg some hpair.2⟩))
      have hle := length_normalizeEol_le (c :: rest)
      rw [heq, List.length_cons] at hle
      omega
  | case4 b c rest hpair ih =>
      rw [normalizeEol, if_neg hpair, hasPair_cons, List.cons.injEq, ih, List.head?_cons,
        Option.some.injEq]
      simp [hpair]

theorem head?_normalizeEol : (normalizeEol (c :: rest)).head? = some 10 ↔
    c = 10 ∨ c = 13 ∧ rest.head? = some 10 := by
  cases rest with
  | nil => simp [normalizeEol]
  | cons d rest =>
      rw [normalizeEol]
      split_ifs with hpair
      · obtain ⟨rfl, rfl⟩ := hpair
        cases rest with
        | nil => simp [normalizeEol]
        | cons e rest => simp [normalizeEol]
      · simp [hpair]

/-- The pair is left where it occurred behind another carriage return. -/
theorem hasPair_normalizeEol : HasPair (normalizeEol bytes) ↔ HasDouble bytes := by
  induction bytes using normalizeEol.induct with
  | case1 => simp [normalizeEol, HasPair, HasDouble]
  | case2 b => simp [normalizeEol, HasPair, HasDouble, List.infix_cons_iff]
  | case3 b c rest hpair ih =>
      obtain ⟨rfl, rfl⟩ := hpair
      rw [normalizeEol, if_pos ⟨rfl, rfl⟩, ih, hasDouble_cons_cons]
      simp
  | case4 b c rest hpair ih =>
      rw [normalizeEol, if_neg hpair, hasDouble_cons_cons, ← ih, hasPair_cons, head?_normalizeEol]
      grind

/-- The pairs of the text. -/
def pairs : Bytes → ℕ
  | [] => 0
  | [_] => 0
  | b :: c :: rest => (if b = 13 ∧ c = 10 then 1 else 0) + pairs (c :: rest)

/-- A zero byte at an early place, not counting the carriage returns that are left out. -/
def EarlyZero (bytes : Bytes) (limit : ℕ) : Prop :=
  ∃ before after, bytes = before ++ 0 :: after ∧ before.length < limit + pairs before

theorem pairs_le : ∀ bytes : Bytes, pairs bytes ≤ bytes.length
  | [] => le_rfl
  | [_] => Nat.zero_le _
  | b :: c :: rest => by
      have hle := pairs_le (c :: rest)
      rw [pairs, List.length_cons]
      split_ifs <;> omega

theorem earlyZero_cons_cons {limit : ℕ} (hpair : ¬ (b = 13 ∧ c = 10)) :
    EarlyZero (b :: c :: rest) (limit + 1) ↔ b = 0 ∨ EarlyZero (c :: rest) limit := by
  constructor
  · rintro ⟨before, after, heq, hlen⟩
    cases before with
    | nil => exact Or.inl (List.cons.inj heq).1
    | cons d before =>
        obtain ⟨rfl, htail⟩ := List.cons.inj heq
        refine Or.inr ⟨before, after, htail, ?_⟩
        cases before with
        | nil => simpa [pairs] using hlen
        | cons e before =>
            obtain ⟨rfl, -⟩ := List.cons.inj htail
            rw [pairs, if_neg hpair, List.length_cons] at hlen
            omega
  · rintro (rfl | ⟨before, after, heq, hlen⟩)
    · exact ⟨[], c :: rest, rfl, by simp [pairs]⟩
    · refine ⟨b :: before, after, by rw [heq]; rfl, ?_⟩
      cases before with
      | nil => simpa [pairs] using hlen
      | cons e before =>
          obtain ⟨rfl, -⟩ := List.cons.inj heq
          rw [pairs, if_neg hpair, List.length_cons]
          omega

/-- Where the zero bytes are once the carriage returns are left out. -/
theorem zero_mem_take_normalizeEol (limit : ℕ) :
    0 ∈ (normalizeEol bytes).take limit ↔ EarlyZero bytes limit := by
  induction bytes using normalizeEol.induct generalizing limit with
  | case1 => simp [normalizeEol, EarlyZero]
  | case2 b =>
      rw [normalizeEol]
      constructor
      · intro h
        obtain rfl := List.mem_singleton.mp (List.mem_of_mem_take h)
        cases limit with
        | zero => cases h
        | succ limit => exact ⟨[], [], rfl, Nat.succ_pos _⟩
      · rintro ⟨before, after, heq, hlen⟩
        obtain ⟨rfl, rfl, rfl⟩ : before = [] ∧ b = 0 ∧ after = [] := by
          cases before <;> simp_all
        cases limit with
        | zero => simp [pairs] at hlen
        | succ limit => simp
  | case3 b c rest hpair ih =>
      obtain ⟨rfl, rfl⟩ := hpair
      rw [normalizeEol, if_pos ⟨rfl, rfl⟩, ih]
      constructor
      · rintro ⟨before, after, heq, hlen⟩
        cases before with
        | nil => simp at heq
        | cons e before =>
            obtain ⟨rfl, htail⟩ := List.cons.inj heq
            refine ⟨13 :: 10 :: before, after, by rw [htail]; rfl, ?_⟩
            rw [pairs, if_pos ⟨rfl, rfl⟩, List.length_cons]
            omega
      · rintro ⟨before, after, heq, hlen⟩
        cases before with
        | nil => simp at heq
        | cons d before =>
            obtain ⟨rfl, htail⟩ := List.cons.inj heq
            refine ⟨before, after, htail, ?_⟩
            cases before with
            | nil => simp at htail
            | cons e before =>
                obtain ⟨rfl, -⟩ := List.cons.inj htail
                rw [pairs, if_pos ⟨rfl, rfl⟩, List.length_cons] at hlen
                omega
  | case4 b c rest hpair ih =>
      cases limit with
      | zero =>
          refine iff_of_false (by simp) ?_
          rintro ⟨before, -, -, hlen⟩
          have hle := pairs_le before
          omega
      | succ limit =>
          rw [normalizeEol, if_neg hpair, List.take_succ_cons, List.mem_cons, ih,
            earlyZero_cons_cons hpair, eq_comm]

theorem isText_eq_false : isText bytes = false ↔ 0 ∈ bytes.take 8192 := by
  simp [isText]

end Normal

/-- Storing a file's bytes a second time, after writing out what was stored, stores the same,
except for a text with a pair behind another carriage return that is still a text once the
carriage returns before its zero bytes are left out. -/
theorem stored_stored_iff (bytes : Bytes) : stored "lf" (stored "lf" bytes) = stored "lf" bytes ↔
    isText bytes = false ∨ EarlyZero bytes 8192 ∨ ¬ HasDouble bytes := by
  have hlf : ∀ bytes, stored "lf" bytes = if isText bytes then normalizeEol bytes else bytes :=
    fun bytes => by simp [stored]
  rw [← zero_mem_take_normalizeEol, ← isText_eq_false, hlf bytes]
  cases htext : isText bytes with
  | false => simp [hlf, htext]
  | true =>
      rw [if_pos rfl, hlf]
      cases hagain : isText (normalizeEol bytes) with
      | false => simp
      | true =>
          rw [if_pos rfl, normalizeEol_eq_self, hasPair_normalizeEol]
          simp

/-- The line feed behind two carriage returns loses one of them each time. -/
theorem doubled_return_drifts :
    ¬ ∀ bytes : Bytes, stored "lf" (stored "lf" bytes) = stored "lf" bytes := by
  intro h
  have hdrift := h [97, 13, 13, 10]
  revert hdrift
  decide

end Tessra.Daemon
