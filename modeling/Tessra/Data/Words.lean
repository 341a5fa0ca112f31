import Mathlib.Data.List.Chain
import Mathlib.Tactic.SplitIfs

namespace Tessra.Data.Words

/-! Texts cut into words, the longest runs of what belongs in a word, and everything between
them. -/

universe u

variable {α : Type u} (w : α → Bool)

/-- What belongs in a word goes to the word that follows. -/
def push (x : α) : List (List α) → List (List α)
  | [] => [[x]]
  | t :: rest => if t.head?.any w then (x :: t) :: rest else [x] :: t :: rest

def tokens : List α → List (List α)
  | [] => []
  | x :: s => if w x then push w x (tokens s) else [x] :: tokens s

/-- A run of what belongs in a word. -/
structure IsWord (t : List α) : Prop where
  nonempty : t ≠ []
  all : ∀ x ∈ t, w x = true

/-- A cut of some text: words and single items that belong in none, no word next to another. -/
structure WellCut (T : List (List α)) : Prop where
  each : ∀ t ∈ T, IsWord w t ∨ ∃ x, t = [x] ∧ w x = false
  apart : T.IsChain fun t t' => ¬ (IsWord w t ∧ IsWord w t')

/-- A word stands in a text, between what comes before and what comes after. -/
structure Occurs (f text a b : List α) : Prop where
  split : text = a ++ f ++ b
  before : ∀ x ∈ a.getLast?, w x = false
  after : ∀ x ∈ b.head?, w x = false

variable {w} {x : α} {f t s a b c d text : List α} {T : List (List α)}

section Cutting

theorem IsWord.head (h : IsWord w t) : t.head?.any w = true := by
  obtain ⟨x, rest, rfl⟩ := List.exists_cons_of_ne_nil h.nonempty
  exact h.all x List.mem_cons_self

theorem IsWord.last (h : IsWord w t) : ∃ x ∈ t.getLast?, w x = true :=
  ⟨_, List.getLast?_eq_some_getLast h.nonempty, h.all _ (List.getLast_mem h.nonempty)⟩

@[simp] theorem flatten_push (x : α) (T : List (List α)) :
    (push w x T).flatten = x :: T.flatten := by
  cases T with
  | nil => rfl
  | cons t rest =>
      rw [push]
      split_ifs <;> rfl

@[simp] theorem flatten_tokens (s : List α) : (tokens w s).flatten = s := by
  induction s with
  | nil => rfl
  | cons x s ih =>
      rw [tokens]
      split_ifs
      · rw [flatten_push, ih]
      · rw [List.flatten_cons, ih]
        rfl

theorem push_append (hT : T ≠ []) (U : List (List α)) :
    push w x (T ++ U) = push w x T ++ U := by
  obtain ⟨t, rest, rfl⟩ := List.exists_cons_of_ne_nil hT
  rw [List.cons_append, push, push]
  split_ifs <;> rfl

theorem tokens_ne_nil (x : α) (s : List α) : tokens w (x :: s) ≠ [] := by
  intro h
  have hflat := flatten_tokens (w := w) (x :: s)
  rw [h] at hflat
  exact List.cons_ne_nil x s hflat.symm

theorem tokens_append (h : ∀ x ∈ a.getLast?, w x = false) :
    tokens w (a ++ s) = tokens w a ++ tokens w s := by
  induction a with
  | nil => rfl
  | cons x a ih =>
      cases a with
      | nil =>
          have hx : w x = false := h x rfl
          simp [tokens, hx]
      | cons y a =>
          rw [List.getLast?_cons_cons] at h
          have hrest := ih h
          rw [List.cons_append, tokens, hrest, tokens.eq_2 w x (y :: a)]
          split_ifs
          · exact push_append (tokens_ne_nil y a) _
          · rfl

theorem push_of_word (h : IsWord w t) : push w x (t :: T) = (x :: t) :: T := by
  rw [push, if_pos h.head]

/-- Each token is not empty, and begins with an item of the text. -/
theorem head_tokens (s : List α) : (tokens w s).head?.bind List.head? = s.head? := by
  cases s with
  | nil => rfl
  | cons x s =>
      rw [tokens]
      split_ifs
      · cases htokens : tokens w s with
        | nil => rfl
        | cons t rest =>
            rw [push]
            split_ifs <;> rfl
      · rfl

theorem tokens_word (h : IsWord w t) (hs : ∀ x ∈ s.head?, w x = false) :
    tokens w (t ++ s) = t :: tokens w s := by
  obtain ⟨hne, hall⟩ := h
  induction t with
  | nil => exact absurd rfl hne
  | cons x t ih =>
      have hx := hall x List.mem_cons_self
      rw [List.cons_append, tokens, if_pos hx]
      cases t with
      | nil =>
          have hhead := head_tokens (w := w) s
          rw [List.nil_append]
          cases htokens : tokens w s with
          | nil => rfl
          | cons t' rest =>
              rw [htokens] at hhead
              have hnot : ¬ t'.head?.any w = true := by
                intro hany
                obtain ⟨y, hy, hword⟩ := (Option.any_eq_true _ _).mp hany
                exact Bool.false_ne_true ((hs y (hhead ▸ hy)).symm.trans hword)
              rw [push, if_neg hnot]
      | cons y t =>
          have hword : IsWord w (y :: t) :=
            ⟨List.cons_ne_nil y t, fun z hz => hall z (List.mem_cons_of_mem x hz)⟩
          rw [ih hword.nonempty hword.all, push_of_word hword]

end Cutting

section WellCut

theorem not_isWord_singleton (h : w x = false) : ¬ IsWord w [x] := fun hword =>
  Bool.false_ne_true (h.symm.trans (hword.all x (List.mem_singleton_self x)))

theorem wellCut_push (hx : w x = true) (h : WellCut w T) : WellCut w (push w x T) := by
  have hsingle : IsWord w [x] :=
    ⟨List.cons_ne_nil x [], fun y hy => List.mem_singleton.mp hy ▸ hx⟩
  cases T with
  | nil => exact ⟨by simp [push, hsingle], List.isChain_singleton _⟩
  | cons t rest =>
      have hrest : ∀ t' ∈ rest, IsWord w t' ∨ ∃ y, t' = [y] ∧ w y = false :=
        fun t' ht' => h.each t' (List.mem_cons_of_mem t ht')
      rw [push]
      split_ifs with hhead
      · have ht : IsWord w t := by
          rcases h.each t List.mem_cons_self with ht | ⟨y, rfl, hy⟩
          · exact ht
          · exact absurd (hy.symm.trans hhead) Bool.false_ne_true
        have hlong : IsWord w (x :: t) :=
          ⟨List.cons_ne_nil x t, List.forall_mem_cons.mpr ⟨hx, ht.all⟩⟩
        refine ⟨List.forall_mem_cons.mpr ⟨Or.inl hlong, hrest⟩, ?_⟩
        cases rest with
        | nil => exact List.isChain_singleton _
        | cons t' rest =>
            obtain ⟨hnot, hchain⟩ := List.isChain_cons_cons.mp h.apart
            exact List.isChain_cons_cons.mpr ⟨fun hboth => hnot ⟨ht, hboth.2⟩, hchain⟩
      · refine ⟨List.forall_mem_cons.mpr ⟨Or.inl hsingle, h.each⟩, ?_⟩
        exact List.isChain_cons_cons.mpr ⟨fun hboth => hhead hboth.2.head, h.apart⟩

theorem wellCut_tokens (s : List α) : WellCut w (tokens w s) := by
  induction s with
  | nil => exact ⟨by simp [tokens], List.isChain_nil⟩
  | cons x s ih =>
      rw [tokens]
      split_ifs with hx
      · exact wellCut_push hx ih
      · have hx : w x = false := by simpa using hx
        refine ⟨List.forall_mem_cons.mpr ⟨Or.inr ⟨x, rfl, hx⟩, ih.each⟩, ?_⟩
        cases htokens : tokens w s with
        | nil => exact List.isChain_singleton _
        | cons t rest =>
            exact List.isChain_cons_cons.mpr
              ⟨fun hboth => not_isWord_singleton hx hboth.1, htokens ▸ ih.apart⟩

theorem WellCut.tail (h : WellCut w (t :: T)) : WellCut w T :=
  ⟨fun t' ht' => h.each t' (List.mem_cons_of_mem t ht'), h.apart.tail⟩

/-- What follows a word does not begin with what belongs in one. -/
theorem WellCut.after (h : WellCut w (t :: T)) (ht : IsWord w t) :
    ∀ x ∈ T.flatten.head?, w x = false := by
  cases T with
  | nil => exact fun x hx => absurd hx (by simp)
  | cons t' rest =>
      have hnot := (List.isChain_cons_cons.mp h.apart).1
      rcases h.each t' (List.mem_cons_of_mem t List.mem_cons_self) with ht' | ⟨y, rfl, hy⟩
      · exact absurd ⟨ht, ht'⟩ hnot
      · intro x hx
        cases hx
        exact hy

/-- A text is cut in one way only. -/
theorem tokens_flatten (h : WellCut w T) : tokens w T.flatten = T := by
  induction T with
  | nil => rfl
  | cons t T ih =>
      rw [List.flatten_cons]
      rcases h.each t List.mem_cons_self with ht | ⟨x, rfl, hx⟩
      · rw [tokens_word ht (h.after ht), ih h.tail]
      · rw [List.singleton_append, tokens, if_neg (by simp [hx]), ih h.tail]

end WellCut

section Occurrences

variable (hf : IsWord w f)
include hf

theorem Occurs.tokens_eq (h : Occurs w f text a b) :
    tokens w text = tokens w a ++ f :: tokens w b := by
  rw [h.split, List.append_assoc, tokens_append h.before, tokens_word hf h.after]

/-- A word is a token of a text just where it stands in the text. -/
theorem mem_tokens : f ∈ tokens w text ↔ ∃ a b, Occurs w f text a b := by
  constructor
  · intro hmem
    obtain ⟨T, U, htokens⟩ := List.append_of_mem hmem
    have hcut := wellCut_tokens (w := w) text
    rw [htokens] at hcut
    have hsuffix : WellCut w (f :: U) :=
      ⟨fun t ht => hcut.each t (List.mem_append_right T ht),
        (List.isChain_append.mp hcut.apart).2.1⟩
    have hflat := flatten_tokens (w := w) text
    rw [htokens, List.flatten_append, List.flatten_cons, ← List.append_assoc] at hflat
    refine ⟨T.flatten, U.flatten, hflat.symm, fun x hx => ?_, hsuffix.after hf⟩
    rcases List.eq_nil_or_concat' T with rfl | ⟨T, t, rfl⟩
    · cases hx
    · have hlast := (List.isChain_append.mp hcut.apart).2.2 t (by simp) f rfl
      rcases hcut.each t (by simp) with ht | ⟨y, rfl, hy⟩
      · exact absurd ⟨ht, hf⟩ hlast
      · rw [List.flatten_concat, List.getLast?_concat] at hx
        cases hx
        exact hy
  · rintro ⟨a, b, h⟩
    rw [h.tokens_eq hf]
    exact List.mem_append_right _ List.mem_cons_self

end Occurrences

section Replacing

variable [DecidableEq α]

/-- The text with one word for another one. -/
def replace (w : α → Bool) (f t s : List α) : List α :=
  ((tokens w s).map fun token => if token = f then t else token).flatten

theorem replace_of_notMem (h : f ∉ tokens w s) : replace w f t s = s := by
  have hsame : ((tokens w s).map fun token => if token = f then t else token) =
      tokens w s := by
    refine (List.map_congr_left fun token htoken => ?_).trans (List.map_id _)
    refine if_neg ?_
    rintro rfl
    exact h htoken
  rw [replace, hsame, flatten_tokens]

theorem Occurs.replace_eq (hf : IsWord w f) (h : Occurs w f s a b)
    (hfirst : f ∉ tokens w a) :
    replace w f t s = a ++ t ++ replace w f t b := by
  have ha := replace_of_notMem (t := t) hfirst
  rw [replace] at ha
  rw [replace, h.tokens_eq hf, List.map_append, List.map_cons, if_pos rfl, List.flatten_append,
    List.flatten_cons, ha, ← List.append_assoc]
  rfl

variable (hf : IsWord w f) (ht : IsWord w t)
include hf ht

theorem WellCut.map_replace (h : WellCut w T) :
    WellCut w (T.map fun token => if token = f then t else token) := by
  have hsame : ∀ token, IsWord w (if token = f then t else token) ↔ IsWord w token := by
    intro token
    split_ifs with heq
    · exact iff_of_true ht (heq ▸ hf)
    · exact Iff.rfl
  constructor
  · refine List.forall_mem_map.mpr fun token htoken => ?_
    rcases h.each token htoken with hword | ⟨x, rfl, hx⟩
    · exact Or.inl ((hsame token).mpr hword)
    · refine Or.inr ⟨x, if_neg ?_, hx⟩
      rintro rfl
      exact not_isWord_singleton hx hf
  · refine (List.isChain_map _).mpr (h.apart.imp fun a b hab => ?_)
    rwa [hsame, hsame]

/-- The tokens of the text with one word for another one. -/
theorem tokens_replace (s : List α) : tokens w (replace w f t s) =
    (tokens w s).map fun token => if token = f then t else token :=
  tokens_flatten ((wellCut_tokens s).map_replace hf ht)

theorem notMem_tokens_replace (hne : f ≠ t) : f ∉ tokens w (replace w f t s) := by
  rw [tokens_replace hf ht]
  intro hmem
  obtain ⟨token, -, heq⟩ := List.mem_map.mp hmem
  split_ifs at heq with htoken
  · exact hne heq.symm
  · exact htoken heq

/-- Another word that was not in the text is replaced back. -/
theorem replace_replace (hnew : t ∉ tokens w s) :
    replace w t f (replace w f t s) = s := by
  rw [replace, tokens_replace hf ht, List.map_map]
  have hsame : ((tokens w s).map ((fun token => if token = t then f else token) ∘
      fun token => if token = f then t else token)) = tokens w s := by
    refine (List.map_congr_left fun token htoken => ?_).trans (List.map_id _)
    rw [Function.comp_apply]
    split_ifs with heq hback hback
    · exact heq.symm
    · exact absurd rfl hback
    · exact absurd htoken (hback ▸ hnew)
    · rfl
  rw [hsame, flatten_tokens]

end Replacing

end Tessra.Data.Words
