import Tessra.Data.Lines
import Tessra.Semantic.Matching

namespace Tessra.Semantic

open Tessra.Core Tessra.Data

/-! Files without a grammar: one unit for each run of lines between blank ones. -/

def newline : Byte := 0x0a

def separator : Byte := 0x1f

/-- What the hash of a body is taken over. -/
def joined (tokens : List Bytes) : Bytes := [separator].intercalate tokens

def trimEnd (line : Bytes) : Bytes :=
  line.rdropWhile fun b => b = 0x20 ∨ b = 0x09 ∨ b = 0x0d ∨ b = 0x0a

/-- The loop over the lines: where the open chunk starts, the place reached, the lines of
the open chunk and the chunks so far. -/
structure Chunking where
  start : Option ℕ
  pos : ℕ
  lines : List Bytes
  out : List RawNode

section Definitions

variable (nodebody : Bytes → ObjectId)

def bodyHash (tokens : List Bytes) : ObjectId := nodebody (joined tokens)

def chunkNode (span : ℕ × ℕ) (lines : List Bytes) : RawNode where
  kind := "chunk"
  name := ""
  span := span
  body := bodyHash nodebody (lines.map trimEnd)
  parent := none
  setlike := false
  refs := []
  shingles := []

def Chunking.flush (s : Chunking) : Chunking :=
  match s.start with
  | none => s
  | some start =>
      ⟨none, s.pos, [], s.out ++ [chunkNode nodebody (start, s.pos) s.lines]⟩

def Chunking.read (s : Chunking) (line : Bytes) : Chunking :=
  if trimEnd line = [] then
    let s := s.flush nodebody
    { s with pos := s.pos + line.length }
  else ⟨s.start.or (some s.pos), s.pos + line.length, s.lines ++ [line], s.out⟩

def chunks (source : Bytes) : List RawNode :=
  (((splitInclusive newline source).foldl (Chunking.read nodebody) ⟨none, 0, [], []⟩).flush
    nodebody).out

end Definitions

/-- The lines of a source within the span of one of its units, less what trails. -/
def textOf (source : Bytes) (c : RawNode) : List Bytes :=
  (splitInclusive newline ((source.take c.span.2).drop c.span.1)).map trimEnd

/-- Units that follow one another in a source and take up its non-blank lines. -/
structure Covers (source : Bytes) (cs : List RawNode) : Prop where
  ordered : cs.Pairwise fun c d => c.span.2 ≤ d.span.1
  inside : ∀ c ∈ cs, c.span.1 < c.span.2 ∧ c.span.2 ≤ source.length
  exact : ∀ pre line post, splitInclusive newline source = pre ++ line :: post →
    ∀ x, pre.flatten.length ≤ x → x < (pre ++ [line]).flatten.length →
      ((∃ c ∈ cs, c.span.1 ≤ x ∧ x < c.span.2) ↔ trimEnd line ≠ [])

section Loop

variable {nodebody : Bytes → ObjectId} {source other : Bytes} {c d : RawNode}
  {seen : List Bytes} {line : Bytes} {s : Chunking}

/-- A run of non-blank lines after some others. -/
structure IsRun (seen pre body : List Bytes) : Prop where
  prefixed : pre ++ body <+: seen
  nonempty : body ≠ []
  nonblank : ∀ line ∈ body, trimEnd line ≠ []

theorem IsRun.mono {pre body : List Bytes} (h : IsRun seen pre body) :
    IsRun (seen ++ [line]) pre body :=
  ⟨h.prefixed.trans (List.prefix_append _ _), h.nonempty, h.nonblank⟩

/-- What the loop has at some lines. -/
structure Chunked (nodebody : Bytes → ObjectId) (seen : List Bytes) (s : Chunking) : Prop where
  pos : s.pos = seen.flatten.length
  closed : s.start = none → s.lines = []
  opened : ∀ a, s.start = some a → ∃ pre, seen = pre ++ s.lines ∧ a = pre.flatten.length ∧
    IsRun seen pre s.lines
  each : ∀ c ∈ s.out, ∃ pre body, IsRun seen pre body ∧
    c = chunkNode nodebody (pre.flatten.length, (pre ++ body).flatten.length) body
  ordered : s.out.Pairwise fun c d => c.span.2 ≤ d.span.1
  behind : ∀ c ∈ s.out, c.span.2 ≤ s.start.getD s.pos
  covers : ∀ pre line post, seen = pre ++ line :: post → trimEnd line ≠ [] →
    (∃ c ∈ s.out, c.span.1 ≤ pre.flatten.length ∧ (pre ++ [line]).flatten.length ≤ c.span.2) ∨
      ∃ a, s.start = some a ∧ a ≤ pre.flatten.length

theorem chunked_nil (nodebody : Bytes → ObjectId) : Chunked nodebody [] ⟨none, 0, [], []⟩ where
  pos := rfl
  closed _ := rfl
  opened a h := by cases h
  each c h := by cases h
  ordered := List.Pairwise.nil
  behind c h := by cases h
  covers pre line post h := absurd h.symm (by simp)

theorem Chunked.start_le (h : Chunked nodebody seen s) {a : ℕ} (ha : s.start = some a) :
    a ≤ s.pos := by
  obtain ⟨pre, hseen, rfl, -⟩ := h.opened a ha
  rw [h.pos, hseen, List.flatten_append, List.length_append]
  exact Nat.le_add_right _ _

@[simp] theorem Chunking.flush_start (s : Chunking) : (s.flush nodebody).start = none := by
  rw [flush]
  split
  · assumption
  · rfl

@[simp] theorem Chunking.flush_pos (s : Chunking) : (s.flush nodebody).pos = s.pos := by
  rw [flush]
  split <;> rfl

theorem Chunked.flush (h : Chunked nodebody seen s) :
    Chunked nodebody seen (s.flush nodebody) := by
  cases hs : s.start with
  | none =>
      rw [Chunking.flush, hs]
      exact h
  | some a =>
      obtain ⟨pre, hseen, rfl, hrun⟩ := h.opened a hs
      have hpos : s.pos = (pre ++ s.lines).flatten.length := by rw [← hseen, h.pos]
      have hbehind : ∀ c ∈ s.out, c.span.2 ≤ pre.flatten.length := fun c hc => by
        have hle := h.behind c hc
        rwa [hs, Option.getD_some] at hle
      rw [Chunking.flush, hs]
      refine ⟨h.pos, fun _ => rfl, fun a ha => absurd ha.symm (Option.some_ne_none a), ?_, ?_,
        ?_, ?_⟩
      · intro c hc
        rcases List.mem_append.mp hc with hc | hc
        · exact h.each c hc
        · rw [List.mem_singleton] at hc
          exact ⟨pre, s.lines, hrun, by rw [hc, hpos]⟩
      · refine List.pairwise_append.mpr ⟨h.ordered, List.pairwise_singleton _ _, ?_⟩
        intro c hc d hd
        rw [List.mem_singleton] at hd
        rw [hd]
        exact hbehind c hc
      · intro c hc
        rcases List.mem_append.mp hc with hc | hc
        · exact (hbehind c hc).trans (h.start_le hs)
        · rw [List.mem_singleton] at hc
          rw [hc]
          exact le_refl _
      · intro pre' line post hsplit hline
        obtain ⟨c, hc, hspan⟩ | ⟨a, ha, hle⟩ := h.covers pre' line post hsplit hline
        · exact .inl ⟨c, List.mem_append_left _ hc, hspan⟩
        · rw [hs] at ha
          cases ha
          refine .inl ⟨_, List.mem_append_right _ (List.mem_singleton_self _), hle, ?_⟩
          change _ ≤ s.pos
          rw [h.pos, hsplit]
          simp

theorem Chunked.read (line : Bytes) (h : Chunked nodebody seen s) :
    Chunked nodebody (seen ++ [line]) (s.read nodebody line) := by
  rw [Chunking.read]
  split_ifs with hblank
  · have hf := h.flush
    refine ⟨by simp [h.pos], hf.closed, fun a ha => ?_, ?_, hf.ordered, ?_, ?_⟩
    · exact absurd ha (by simp)
    · intro c hc
      obtain ⟨pre, body, hrun, hc⟩ := hf.each c hc
      exact ⟨pre, body, hrun.mono, hc⟩
    · intro c hc
      have hle := hf.behind c hc
      simp only [Chunking.flush_start, Chunking.flush_pos, Option.getD_none] at hle ⊢
      omega
    · intro pre l post hsplit hl
      obtain ⟨-, rfl⟩ | ⟨rest, hseen⟩ := split_concat hsplit
      · exact absurd hblank hl
      · exact hf.covers pre l rest hseen hl
  · have hstart : ∃ pre, seen = pre ++ s.lines ∧
        s.start.or (some s.pos) = some pre.flatten.length ∧
        ∀ line ∈ s.lines, trimEnd line ≠ [] := by
      cases hs : s.start with
      | none => exact ⟨seen, by simp [h.closed hs], by simp [h.pos], by simp [h.closed hs]⟩
      | some a =>
          obtain ⟨pre, hseen, rfl, hrun⟩ := h.opened a hs
          exact ⟨pre, hseen, rfl, hrun.nonblank⟩
    obtain ⟨pre, hseen, hstart, hlines⟩ := hstart
    have hrun : IsRun (seen ++ [line]) pre (s.lines ++ [line]) := by
      refine ⟨by rw [hseen, List.append_assoc], by simp, fun l hl => ?_⟩
      rcases List.mem_append.mp hl with hl | hl
      · exact hlines l hl
      · rw [List.mem_singleton.mp hl]
        exact hblank
    have hle : s.start.getD s.pos ≤ (s.start.or (some s.pos)).getD (s.pos + line.length) := by
      cases s.start <;> simp
    refine ⟨by simp [h.pos], fun ha => ?_, fun a ha => ?_, ?_, h.ordered, ?_, ?_⟩
    · exact absurd ha (by rw [hstart]; exact Option.some_ne_none _)
    · rw [hstart, Option.some.injEq] at ha
      exact ⟨pre, by rw [hseen, List.append_assoc], ha.symm, hrun⟩
    · intro c hc
      obtain ⟨pre, body, hrun, hc⟩ := h.each c hc
      exact ⟨pre, body, hrun.mono, hc⟩
    · intro c hc
      exact (h.behind c hc).trans hle
    · intro pre' l post hsplit hl
      obtain ⟨rfl, rfl⟩ | ⟨rest, hseen'⟩ := split_concat hsplit
      · refine .inr ⟨_, hstart, ?_⟩
        rw [hseen, List.flatten_append, List.length_append]
        exact Nat.le_add_right _ _
      · obtain hc | ⟨a, ha, hle⟩ := h.covers pre' l rest hseen' hl
        · exact .inl hc
        · exact .inr ⟨a, by rw [ha]; rfl, hle⟩

theorem chunked_foldl (rest : List Bytes) (h : Chunked nodebody seen s) :
    Chunked nodebody (seen ++ rest) (rest.foldl (Chunking.read nodebody) s) := by
  induction rest generalizing seen s with
  | nil =>
      rw [List.append_nil]
      exact h
  | cons line rest ih =>
      have hnext := ih (h.read line)
      rwa [List.append_assoc, List.singleton_append] at hnext

theorem chunked_chunks (nodebody : Bytes → ObjectId) (source : Bytes) :
    ∃ s, Chunked nodebody (splitInclusive newline source) s ∧ s.start = none ∧
      s.out = chunks nodebody source := by
  have h := chunked_foldl (splitInclusive newline source) (chunked_nil nodebody)
  rw [List.nil_append] at h
  exact ⟨_, h.flush, Chunking.flush_start _, rfl⟩

end Loop

section Chunks

variable {nodebody : Bytes → ObjectId} {source other : Bytes} {c d : RawNode}

/-- A chunk is a run of the source's non-blank lines. -/
theorem run_of_mem_chunks (hc : c ∈ chunks nodebody source) :
    ∃ pre body, IsRun (splitInclusive newline source) pre body ∧
      c = chunkNode nodebody (pre.flatten.length, (pre ++ body).flatten.length) body := by
  obtain ⟨s, h, -, hout⟩ := chunked_chunks nodebody source
  exact h.each c (hout ▸ hc)

theorem textOf_run {pre body : List Bytes} {c : RawNode}
    (h : IsRun (splitInclusive newline source) pre body)
    (hspan : c.span = (pre.flatten.length, (pre ++ body).flatten.length)) :
    textOf source c = body.map trimEnd := by
  obtain ⟨post, hpost⟩ := h.prefixed
  have hsource : source = pre.flatten ++ body.flatten ++ post.flatten := by
    rw [← List.flatten_append, ← List.flatten_append, hpost, flatten_splitInclusive]
  rw [textOf, hspan, List.flatten_append]
  conv_lhs => rw [hsource]
  rw [List.take_left, List.drop_left, splitInclusive_part hpost.symm]

theorem textOf_ne_nil (hc : c ∈ chunks nodebody source) : textOf source c ≠ [] := by
  obtain ⟨pre, body, hrun, rfl⟩ := run_of_mem_chunks hc
  rw [textOf_run hrun rfl]
  exact fun h => hrun.nonempty (List.map_eq_nil_iff.mp h)

theorem body_of_mem_chunks (hc : c ∈ chunks nodebody source) :
    c.body = nodebody (joined (textOf source c)) := by
  obtain ⟨pre, body, hrun, rfl⟩ := run_of_mem_chunks hc
  rw [textOf_run hrun rfl]
  rfl

theorem length_pos_of_trimEnd {line : Bytes} (h : trimEnd line ≠ []) : 0 < line.length := by
  rw [List.length_pos_iff]
  rintro rfl
  exact h rfl

theorem chunks_cover (nodebody : Bytes → ObjectId) (source : Bytes) :
    Covers source (chunks nodebody source) := by
  obtain ⟨s, h, hclosed, hout⟩ := chunked_chunks nodebody source
  refine ⟨hout ▸ h.ordered, fun c hc => ?_, fun pre line post hsplit x hlo hhi => ?_⟩
  · obtain ⟨pre, body, hrun, rfl⟩ := run_of_mem_chunks hc
    obtain ⟨line, rest, rfl⟩ := List.exists_cons_of_ne_nil hrun.nonempty
    have hline := length_pos_of_trimEnd (hrun.nonblank line List.mem_cons_self)
    obtain ⟨post, hpost⟩ := hrun.prefixed
    have hsource := flatten_splitInclusive newline source
    rw [← hpost, List.flatten_append] at hsource
    refine ⟨?_, ?_⟩
    · simp only [chunkNode, List.flatten_append, List.flatten_cons, List.length_append]
      omega
    · rw [← hsource, List.length_append]
      exact Nat.le_add_right _ _
  · constructor
    · rintro ⟨c, hc, hcx⟩
      obtain ⟨pre', body, hrun, rfl⟩ := run_of_mem_chunks hc
      obtain ⟨post', hpost⟩ := hrun.prefixed
      exact hrun.nonblank line (mem_of_place (hsplit.symm.trans hpost.symm) ⟨hlo, hhi⟩ hcx)
    · intro hline
      obtain ⟨c, hc, hspan⟩ | ⟨a, ha, -⟩ := h.covers pre line post hsplit hline
      · exact ⟨c, hout ▸ hc, hspan.1.trans hlo, hhi.trans_le hspan.2⟩
      · exact absurd (hclosed.symm.trans ha).symm (Option.some_ne_none a)

/-- Two chunks of one body hash have the same text exactly when bytes between tokens, taken
for ends of lines, hide no difference: lines with the same pieces then have the same number
of pieces each. -/
theorem chunks_body_iff (hc : c ∈ chunks nodebody source) (hd : d ∈ chunks nodebody other)
    (hfree : Set.InjOn nodebody {joined (textOf source c), joined (textOf other d)}) :
    ((c.body = d.body ↔ textOf source c = textOf other d) ∧
      Covers source (chunks nodebody source)) ↔
    ((textOf source c).flatMap (·.splitOn separator) =
        (textOf other d).flatMap (·.splitOn separator) →
      (textOf source c).map (List.count separator) =
        (textOf other d).map (List.count separator)) := by
  have hbody : c.body = d.body ↔ (textOf source c).flatMap (·.splitOn separator) =
      (textOf other d).flatMap (·.splitOn separator) := by
    rw [body_of_mem_chunks hc, body_of_mem_chunks hd, hfree.eq_iff (by simp) (by simp)]
    exact joined_eq_iff (textOf_ne_nil hc) (textOf_ne_nil hd)
  rw [and_iff_left (chunks_cover nodebody source), hbody]
  constructor
  · intro h hpieces
    rw [h.mp hpieces]
  · intro h
    refine ⟨fun hpieces => eq_of_pieces hpieces (h hpieces), fun heq => ?_⟩
    rw [heq]

/-- Hashes that tell texts apart by their first byte. -/
def firstByte (bytes : Bytes) : ObjectId := .splat (bytes.headD 0).val

/-- The line `a␟b` and the lines `a` and `b`. -/
theorem chunks_hide_edit :
    ¬ ∀ (nodebody : Bytes → ObjectId) (source other : Bytes) (c d : RawNode),
      c ∈ chunks nodebody source → d ∈ chunks nodebody other →
      Set.InjOn nodebody {joined (textOf source c), joined (textOf other d)} →
      (c.body = d.body ↔ textOf source c = textOf other d) := by
  intro h
  have hone := h firstByte [0x61, 0x1f, 0x62] [0x61, 0x0a, 0x62]
    (chunkNode firstByte (0, 3) [[0x61, 0x1f, 0x62]])
    (chunkNode firstByte (0, 3) [[0x61, 0x0a], [0x62]]) (by decide +kernel) (by decide +kernel)
    (by
      rw [show joined (textOf [0x61, 0x0a, 0x62]
          (chunkNode firstByte (0, 3) [[0x61, 0x0a], [0x62]])) =
        joined (textOf [0x61, 0x1f, 0x62] (chunkNode firstByte (0, 3) [[0x61, 0x1f, 0x62]]))
        from by decide +kernel, Set.pair_eq_singleton]
      exact Set.injOn_singleton _ _)
  exact absurd hone (by decide +kernel)

/-- The chunks `a` and `b` of one source. -/
theorem chunks_body_iff_two :
    let source : Bytes := [0x61, 0x20, 0x0a, 0x0a, 0x62]
    let c := chunkNode firstByte (0, 3) [[0x61, 0x20, 0x0a]]
    let d := chunkNode firstByte (4, 5) [[0x62]]
    ((c.body = d.body ↔ textOf source c = textOf source d) ∧
      Covers source (chunks firstByte source)) ↔
    ((textOf source c).flatMap (·.splitOn separator) =
        (textOf source d).flatMap (·.splitOn separator) →
      (textOf source c).map (List.count separator) =
        (textOf source d).map (List.count separator)) :=
  chunks_body_iff (by decide +kernel) (by decide +kernel) (by
    refine Set.injOn_pair.mpr fun h => ?_
    exact absurd h (by decide +kernel))

end Chunks

end Tessra.Semantic
