import Tessra.Daemon.Bridge

namespace Tessra.Daemon

open Tessra.Core Tessra.Data Tessra.Oplog Verify StoreM Relation

/-! The revision-to-commit map: which commit is found for what was imported. -/

section Bodies

variable {phrase text suffix after : List Char} {c : Char}

theorem starts_of_starts_append (hc : c ∉ phrase) (h : phrase <+: text ++ c :: suffix) :
    phrase <+: text := by
  induction text generalizing phrase with
  | nil =>
      cases phrase with
      | nil => exact List.prefix_refl _
      | cons d rest =>
          rw [List.nil_append, List.cons_prefix_cons] at h
          exact absurd (h.1 ▸ List.mem_cons_self) hc
  | cons d text ih =>
      cases phrase with
      | nil => exact List.nil_prefix
      | cons e rest =>
          rw [List.cons_append, List.cons_prefix_cons] at h
          exact List.cons_prefix_cons.mpr ⟨h.1, ih (fun hmem => hc (List.mem_cons_of_mem _ hmem)) h.2⟩

theorem length_le_of_findAfter (h : findAfter phrase text = some after) :
    phrase.length ≤ text.length := by
  induction text with
  | nil =>
      rw [findAfter] at h
      split_ifs at h with hstarts
      exact (List.isPrefixOf_iff_prefix.mp hstarts).length_le
  | cons c rest ih =>
      rw [findAfter] at h
      split_ifs at h with hstarts
      · exact (List.isPrefixOf_iff_prefix.mp hstarts).length_le
      · exact Nat.le_succ_of_le (ih h)

theorem findAfter_of_starts (h : phrase <+: text) :
    findAfter phrase text = some (text.drop phrase.length) := by
  cases text with
  | nil => rw [findAfter, if_pos (List.isPrefixOf_iff_prefix.mpr h), List.drop_nil]
  | cons c rest => rw [findAfter, if_pos (List.isPrefixOf_iff_prefix.mpr h)]

/-- What follows the first occurrence, a longer text has follow it too. -/
theorem findAfter_append (h : findAfter phrase text = some after) (suffix : List Char) :
    findAfter phrase (text ++ suffix) = some (after ++ suffix) := by
  induction text with
  | nil =>
      rw [findAfter] at h
      split_ifs at h with hstarts
      obtain rfl := List.prefix_nil.mp (List.isPrefixOf_iff_prefix.mp hstarts)
      cases h
      exact findAfter_of_starts List.nil_prefix
  | cons c rest ih =>
      have hlength := length_le_of_findAfter h
      rw [findAfter] at h
      split_ifs at h with hstarts
      · have hstarts := List.isPrefixOf_iff_prefix.mp hstarts
        cases h
        rw [findAfter_of_starts (hstarts.trans (List.prefix_append _ _)),
          List.drop_append_of_le_length hlength]
      · have hnot : ¬ phrase.isPrefixOf (c :: (rest ++ suffix)) := by
          rw [List.isPrefixOf_iff_prefix] at hstarts ⊢
          exact fun hlonger => hstarts
            (List.prefix_of_prefix_length_le hlonger (List.prefix_append (c :: rest) suffix) hlength)
        rw [List.cons_append, findAfter, if_neg hnot, ih h]

/-- Past a character that the phrase does not have, the search goes on behind it. -/
theorem findAfter_append_cons (hc : c ∉ phrase) (h : findAfter phrase text = none) :
    findAfter phrase (text ++ c :: suffix) = findAfter phrase suffix := by
  induction text with
  | nil =>
      rw [findAfter] at h
      split_ifs at h with hstarts
      have hnot : ¬ phrase.isPrefixOf (c :: suffix) := by
        rw [List.isPrefixOf_iff_prefix] at hstarts ⊢
        exact fun hlonger => hstarts (starts_of_starts_append hc hlonger)
      rw [List.nil_append, findAfter, if_neg hnot]
  | cons d rest ih =>
      rw [findAfter] at h
      split_ifs at h with hstarts
      have hnot : ¬ phrase.isPrefixOf (d :: (rest ++ c :: suffix)) := by
        rw [List.isPrefixOf_iff_prefix] at hstarts ⊢
        intro hlonger
        have hlonger : phrase <+: (d :: rest) ++ c :: suffix := hlonger
        exact hstarts (starts_of_starts_append hc hlonger)
      rw [List.cons_append, findAfter, if_neg hnot, ih h]

theorem takeWhile_append_cons {p : Char → Bool} (hc : p c = false) :
    (text ++ c :: suffix).takeWhile p = text.takeWhile p := by
  induction text with
  | nil => simp [hc]
  | cons d rest ih => simp only [List.cons_append, List.takeWhile_cons, ih]

theorem CommitId.parse_hash (commit : CommitId) : CommitId.parse commit.hash = some commit := by
  rw [parse, dif_pos ⟨commit.digits, commit.length⟩]

/-- What follows the phrase in the body of an imported revision. -/
def importSuffix (commit : CommitId) (content : Content) : List Char :=
  commit.hash ++ ' ' :: ("by ".toList ++ content.author.toList ++ ['.'])

theorem findAfter_importSuffix (commit : CommitId) (content : Content) :
    findAfter importPhrase (importPhrase ++ importSuffix commit content) =
      some (importSuffix commit content) := by
  rw [findAfter_of_starts (List.prefix_append _ _), List.drop_left]

theorem parse_importSuffix (commit : CommitId) (content : Content) :
    CommitId.parse ((importSuffix commit content).takeWhile isHexDigit) = some commit := by
  have hhash : commit.hash.takeWhile isHexDigit = commit.hash :=
    List.takeWhile_eq_self_iff.mpr (List.all_eq_true.mp commit.digits)
  rw [importSuffix, takeWhile_append_cons (by decide), hhash, commit.parse_hash]

/-- The commit that is found in the body of an imported revision: the one it came from,
unless its message has the phrase. -/
theorem namedCommit_importedBody (commit : CommitId) (content : Content) :
    namedCommit (importedBody commit content) =
      if findAfter importPhrase content.message.toList = none then some commit
      else namedCommit content.message := by
  by_cases hempty : content.message = ""
  · have hbody : (importedBody commit content).toList =
        importPhrase ++ importSuffix commit content := by
      simp [importedBody, importSuffix, hempty]
    have hnone : findAfter importPhrase content.message.toList = none := by
      rw [hempty]
      decide
    rw [if_pos hnone, namedCommit, hbody, findAfter_importSuffix]
    exact parse_importSuffix commit content
  · have hbody : (importedBody commit content).toList = content.message.toList ++
        '\n' :: ([] ++ '\n' :: (importPhrase ++ importSuffix commit content)) := by
      simp [importedBody, importSuffix, hempty]
    rw [namedCommit, hbody, namedCommit]
    cases hfind : findAfter importPhrase content.message.toList with
    | none =>
        rw [if_pos rfl, findAfter_append_cons (by decide) hfind,
          findAfter_append_cons (by decide) (by decide), findAfter_importSuffix]
        exact parse_importSuffix commit content
    | some after =>
        rw [if_neg (by simp), findAfter_append hfind]
        simp only [Option.bind_some, takeWhile_append_cons (show isHexDigit '\n' = false by decide)]

/-- A message that has the phrase has it with the commit itself. -/
def Plain (message : String) (commit : CommitId) : Prop :=
  findAfter importPhrase message.toList ≠ none → namedCommit message = some commit

theorem namedCommit_importedBody_iff (commit : CommitId) (content : Content) :
    namedCommit (importedBody commit content) = some commit ↔ Plain content.message commit := by
  rw [namedCommit_importedBody, Plain]
  split_ifs with hnone
  · simp [hnone]
  · simp [hnone]

end Bodies

section Chains

variable [Crypto] {S S' : Store} {id : ObjectId} {r : Revision} {steps : ℕ}
  {chain : List (ObjectId × Revision)}

theorem lasting_trunkFrom (steps : ℕ) (id : ObjectId) : (trunkFrom steps id).Lasting := by
  induction steps generalizing id with
  | zero => exact lasting_pure _
  | succ steps ih =>
      rw [trunkFrom]
      refine (lasting_get Revision id).bind fun r => ?_
      cases r.parents.head? with
      | none => exact lasting_pure _
      | some p => exact (ih p).bind fun _ => lasting_pure _

theorem trunkFrom_cons {p : ObjectId} (hr : (get Revision id).value S = .ok r)
    (hp : r.parents.head? = some p) (hrest : (trunkFrom steps p).value S = .ok chain) :
    (trunkFrom (steps + 1) id).value S = .ok ((id, r) :: chain) := by
  rw [trunkFrom, (bind_of_ok hr).1, readOnly_get]
  simp only [hp]
  exact (bind_of_ok hrest).1

theorem trunkFrom_root (hr : (get Revision id).value S = .ok r) (hp : r.parents.head? = none) :
    (trunkFrom (steps + 1) id).value S = .ok [(id, r)] := by
  rw [trunkFrom, (bind_of_ok hr).1, readOnly_get]
  simp only [hp]
  rfl

theorem trunkFrom_ok (h : (trunkFrom (steps + 1) id).value S = .ok chain) :
    ∃ r rest, (get Revision id).value S = .ok r ∧ chain = (id, r) :: rest ∧
      ((r.parents.head? = none ∧ rest = []) ∨
        ∃ p, r.parents.head? = some p ∧ (trunkFrom steps p).value S = .ok rest) := by
  rw [trunkFrom] at h
  obtain ⟨r, hr, h, _⟩ := bind_ok h
  rw [readOnly_get] at h
  cases hp : r.parents.head? with
  | none =>
      simp only [hp] at h
      cases h
      exact ⟨r, [], hr, rfl, .inl ⟨hp, rfl⟩⟩
  | some p =>
      simp only [hp] at h
      obtain ⟨rest, hrest, h, _⟩ := bind_ok h
      cases h
      exact ⟨r, rest, hr, rfl, .inr ⟨p, hp, hrest⟩⟩

/-- Fewer steps find the newest of the revisions. -/
theorem trunkFrom_take {fewer : ℕ} (hle : fewer ≤ steps)
    (h : (trunkFrom steps id).value S = .ok chain) :
    (trunkFrom fewer id).value S = .ok (chain.take fewer) := by
  induction fewer generalizing steps id chain with
  | zero => rfl
  | succ fewer ih =>
      obtain ⟨steps, rfl⟩ : ∃ n, steps = n + 1 := ⟨steps - 1, by omega⟩
      obtain ⟨r, rest, hr, rfl, hrest⟩ := trunkFrom_ok h
      rcases hrest with ⟨hp, rfl⟩ | ⟨p, hp, hrest⟩
      · rw [List.take_succ_cons, List.take_nil]
        exact trunkFrom_root hr hp
      · exact trunkFrom_cons hr hp (ih (by omega) hrest)

theorem mem_trunkFrom (hfree : CollisionFree S) (h : (trunkFrom steps id).value S = .ok chain)
    {e : ObjectId × Revision} (he : e ∈ chain) :
    Reaches S id e.1 ∧ (get Revision e.1).value S = .ok e.2 := by
  induction steps generalizing id chain with
  | zero =>
      cases h
      cases he
  | succ steps ih =>
      obtain ⟨r, rest, hr, rfl, hrest⟩ := trunkFrom_ok h
      rcases List.mem_cons.mp he with rfl | he
      · exact ⟨.refl, hr⟩
      · rcases hrest with ⟨_, rfl⟩ | ⟨p, hp, hrest⟩
        · cases he
        · obtain ⟨hreaches, hget⟩ := ih hrest he
          obtain ⟨hmem, rfl⟩ := get_ok hr
          refine ⟨.head ?_ hreaches, hget⟩
          change p ∈ landedNext S (Crypto.objectId (.revision r))
          rw [landedNext_of_mem hfree hmem]
          exact List.mem_of_mem_head? hp

end Chains

section Knowing

variable [Crypto] {s s' : Bridge} {T : Store} {r : Revision} {chain : List (ObjectId × Revision)}

theorem known_reverse (s : Bridge) (chain : List (ObjectId × Revision)) :
    s.known chain.reverse = chain.findSome? fun e => s.commitOf e.1 e.2 := by
  rw [Bridge.known, List.foldl_reverse]
  induction chain with
  | nil => rfl
  | cons e rest ih =>
      rw [List.foldr_cons, List.findSome?_cons, ih]
      cases s.commitOf e.1 e.2 <;> rfl

theorem value_get_advances (hT : CollisionFree T) (h : s.Advances T r) :
    (get Revision (revisionId r)).value T = .ok r := value_get hT h.mem

/-- Where trunk advances, the new revision comes before the others. -/
theorem trunkFrom_advance (hT : CollisionFree T) (h : s.Advances T r)
    (hchain : (trunkFrom 100001 s.head).value s.store = .ok chain) :
    (trunkFrom 100001 (revisionId r)).value T = .ok ((revisionId r, r) :: chain.take 100000) := by
  refine trunkFrom_cons (value_get_advances hT h) h.parent ?_
  exact trunkFrom_take (by omega) ((lasting_trunkFrom _ _).lasts h.sub hT hchain)

theorem Bridge.Advances.reaches {x : ObjectId} (h : s.Advances T r) (hT : CollisionFree T)
    (hreaches : Reaches T s.head x) : Reaches T (revisionId r) x := by
  refine .head ?_ hreaches
  change s.head ∈ landedNext T (Crypto.objectId (.revision r))
  rw [landedNext_of_mem hT h.mem]
  exact List.mem_of_mem_head? h.parent

/-- The newest trunk revision that has a commit has this one. -/
def Knows (s : Bridge) (k : CommitId) : Prop :=
  ∃ chain, (trunkFrom 100001 s.head).value s.store = .ok chain ∧
    (chain.findSome? fun e => s.commitOf e.1 e.2) = some k

/-- The trunk revisions are there, each once, and their commits are in the graph. -/
structure Chained (s : Bridge) (chain : List (ObjectId × Revision)) : Prop where
  value : (trunkFrom 100001 s.head).value s.store = .ok chain
  nodup : (chain.map Prod.fst).Nodup
  graph : ∀ e ∈ chain, ∀ c, s.commitOf e.1 e.2 = some c → c ∈ ids s.graph

/-- A commit on the first parents of its branch that no known commit is in front of. -/
structure Waits (s : Bridge) (w : String × CommitId) : Prop where
  unknown : s.revisionOfCommit w.2 = none
  onLine : ∃ tip, s.branches.get? w.1 = some tip ∧ w.2 ∈ firstParents s.graph (some tip)
  ahead : ∀ k, Knows s k → ¬ Behind s.graph k w.2

/-- What every step keeps. -/
structure Bridged (s : Bridge) : Prop where
  chain : ∃ chain, Chained s chain
  tips : ∀ b tip, s.branches.get? b = some tip → tip ∈ ids s.graph
  recorded : ∀ e ∈ s.revs, Reaches s.store s.head e.1
  mapped : ∀ c r, s.revisionOfCommit c = some r → Reaches s.store s.head r ∧
    ∃ rev, (get Revision r).value s.store = .ok rev ∧ s.commitOf r rev = some c
  waiting : ∀ w ∈ s.waiting, Waits s w
  made : ∀ e ∈ s.made, ∃ rev, (get Revision e.1).value s.store = .ok rev ∧
    s.commitOf e.1 rev = some e.2

theorem commitOf_remember (s : Bridge) (r r' : ObjectId) (c : CommitId) (rev : Revision) :
    (s.remember r c).commitOf r' rev = if r' = r then some c else s.commitOf r' rev := by
  by_cases h : r' = r
  · simp [Bridge.commitOf, Bridge.remember, h]
  · simp [Bridge.commitOf, Bridge.remember, List.lookup_cons, beq_eq_false_iff_ne.mpr h, h]

theorem revisionOfCommit_remember (s : Bridge) (r : ObjectId) (c c' : CommitId) :
    (s.remember r c).revisionOfCommit c' = if c' = c then some r else s.revisionOfCommit c' := by
  by_cases h : c' = c
  · simp [Bridge.revisionOfCommit, Bridge.remember, h]
  · simp [Bridge.revisionOfCommit, Bridge.remember, List.lookup_cons, beq_eq_false_iff_ne.mpr h, h]

/-- Is the commit one that the revision was imported or exported as? -/
def Bridge.Is (s : Bridge) (r : ObjectId) (c : CommitId) : Prop :=
  s.revisionOfCommit c = some r ∨ (r, c) ∈ s.made

theorem Bridge.Is.of_remember {s : Bridge} {r r' : ObjectId} {c c' : CommitId}
    (h : (s.remember r c).Is r' c') : s.Is r' c' ∨ (r' = r ∧ c' = c) := by
  rcases h with h | h
  · rw [revisionOfCommit_remember] at h
    split_ifs at h with heq
    · exact .inr ⟨(Option.some.inj h).symm, heq⟩
    · exact .inl (.inl h)
  · exact .inl (.inr h)

/-- Remembering a commit for a revision that is no other changes no commit that a
revision is. -/
theorem commitOf_remember_same {s : Bridge} {r r' : ObjectId} {c c' : CommitId} {rev : Revision}
    (hsame : ∀ c, s.Is r c → c = c') (his : s.Is r' c) (h : s.commitOf r' rev = some c) :
    (s.remember r c').commitOf r' rev = some c := by
  rw [commitOf_remember]
  split_ifs with heq
  · rw [hsame c (heq ▸ his)]
  · exact h

theorem Knows.of_remember {s : Bridge} {r : ObjectId} {c k : CommitId}
    (h : Knows (s.remember r c) k) : Knows s k ∨ k = c := by
  obtain ⟨chain, hchain, hfind⟩ := h
  have hsplit : (chain.findSome? fun e => (s.remember r c).commitOf e.1 e.2) =
      (chain.findSome? fun e => s.commitOf e.1 e.2) ∨
      (chain.findSome? fun e => (s.remember r c).commitOf e.1 e.2) = some c := by
    clear hchain hfind
    induction chain with
    | nil => exact .inl rfl
    | cons e rest ih =>
        rw [List.findSome?_cons, List.findSome?_cons, commitOf_remember]
        by_cases heq : e.1 = r
        · rw [if_pos heq]
          exact .inr rfl
        · rw [if_neg heq]
          cases s.commitOf e.1 e.2 with
          | some c' => exact .inl rfl
          | none => exact ih
  rcases hsplit with hsame | hnew
  · exact .inl ⟨chain, hchain, hsame ▸ hfind⟩
  · rw [hnew] at hfind
    exact .inr (Option.some.inj hfind).symm

theorem Bridged.same_of_is {r : ObjectId} {c c' : CommitId} {rev : Revision} (h : Bridged s)
    (hget : (get Revision r).value s.store = .ok rev) (hcommit : s.commitOf r rev = some c)
    (his : s.Is r c') : c' = c := by
  have hfound : ∃ rev', (get Revision r).value s.store = .ok rev' ∧
      s.commitOf r rev' = some c' := by
    rcases his with hmapped | hmade
    · exact (h.mapped c' r hmapped).2
    · exact h.made _ hmade
  obtain ⟨rev', hget', hcommit'⟩ := hfound
  cases hget.symm.trans hget'
  exact Option.some.inj (hcommit'.symm.trans hcommit)

/-- Remembering the commit of a trunk revision. -/
theorem Bridged.remember {r : ObjectId} {c : CommitId} {rev : Revision} (h : Bridged s)
    (hreaches : Reaches s.store s.head r) (hget : (get Revision r).value s.store = .ok rev)
    (hsame : ∀ c', s.Is r c' → c' = c) (hc : c ∈ ids s.graph)
    (hwaiting : ∀ w ∈ s.waiting, ¬ Behind s.graph c w.2) : Bridged (s.remember r c) where
  chain := by
    obtain ⟨chain, hchain⟩ := h.chain
    refine ⟨chain, hchain.value, hchain.nodup, fun e he c' hc' => ?_⟩
    rw [commitOf_remember] at hc'
    split_ifs at hc' with heq
    · cases hc'
      exact hc
    · exact hchain.graph e he c' hc'
  tips := h.tips
  recorded := List.forall_mem_cons.mpr ⟨hreaches, h.recorded⟩
  mapped c' r' hr' := by
    rw [revisionOfCommit_remember] at hr'
    split_ifs at hr' with heq
    · subst heq
      cases hr'
      exact ⟨hreaches, rev, hget, by rw [commitOf_remember, if_pos rfl]⟩
    · obtain ⟨hreaches', rev', hget', hcommit⟩ := h.mapped c' r' hr'
      exact ⟨hreaches', rev', hget', commitOf_remember_same hsame (.inl hr') hcommit⟩
  waiting w hw := by
    obtain ⟨hunknown, hline, hahead⟩ := h.waiting w hw
    refine ⟨?_, hline, fun k hk => ?_⟩
    · rw [revisionOfCommit_remember, if_neg]
      · exact hunknown
      · intro heq
        exact hwaiting w hw (by rw [heq]; exact behind_self hc)
    · rcases hk.of_remember with hk | rfl
      · exact hahead k hk
      · exact hwaiting w hw
  made e he := by
    obtain ⟨rev', hget', hcommit⟩ := h.made e he
    exact ⟨rev', hget', commitOf_remember_same hsame (.inr he) hcommit⟩

/-- The new head has no commit but the one that its body names. -/
theorem commitOf_new {T : Store} {r : Revision} (h : Bridged s) (hT : CollisionFree T)
    (hadvances : s.Advances T r) :
    s.commitOf (revisionId r) r = r.body.bind namedCommit := by
  have hnone : s.revs.lookup (revisionId r) = none := by
    rw [List.lookup_eq_none_iff]
    intro e he
    rw [bne_iff_ne]
    intro heq
    exact hadvances.fresh (heq ▸ (h.recorded e he).mono hadvances.sub hT)
  rw [Bridge.commitOf, hnone]

/-- Only trunk and the records of revisions matter to what is known. -/
theorem Knows.congr {k : CommitId} (h : Knows s k) (hhead : s'.head = s.head)
    (hstore : s'.store = s.store) (hrevs : s'.revs = s.revs) : Knows s' k := by
  obtain ⟨chain, hvalue, hfind⟩ := h
  have hcommit : ∀ e : ObjectId × Revision, s'.commitOf e.1 e.2 = s.commitOf e.1 e.2 := fun e => by
    rw [Bridge.commitOf, hrevs, Bridge.commitOf]
  refine ⟨chain, by rw [hhead, hstore]; exact hvalue, ?_⟩
  simp only [hcommit]
  exact hfind

theorem Knows.of_advance {T : Store} {r : Revision} {k : CommitId} (hkept : Bridged s)
    (hT : CollisionFree T) (hadvances : s.Advances T r) (h : Knows (s.advance T hT r) k) :
    r.body.bind namedCommit = some k ∨ (r.body.bind namedCommit = none ∧ Knows s k) := by
  obtain ⟨chain, hchain⟩ := hkept.chain
  obtain ⟨chain', hvalue, hfind⟩ := h
  have hnewer := trunkFrom_advance hT hadvances hchain.value
  have hvalue : (trunkFrom 100001 (revisionId r)).value T = .ok chain' := hvalue
  cases hvalue.symm.trans hnewer
  have hnew := commitOf_new hkept hT hadvances
  have hfind : ((revisionId r, r) :: chain.take 100000).findSome?
      (fun e => s.commitOf e.1 e.2) = some k := hfind
  rw [List.findSome?_cons, hnew] at hfind
  cases hnamed : r.body.bind namedCommit with
  | some c =>
      rw [hnamed] at hfind
      exact .inl hfind
  | none =>
      rw [hnamed] at hfind
      have hfind : ((chain.take 100000).findSome? fun e => s.commitOf e.1 e.2) = some k := hfind
      refine .inr ⟨rfl, chain, hchain.value, ?_⟩
      rw [← List.take_append_drop 100000 chain, List.findSome?_append, hfind]
      rfl

/-- Trunk advances, and what waits stays ahead of the commit that the new head names. -/
theorem Bridged.advance {T : Store} {r : Revision} {w : List (String × CommitId)} (h : Bridged s)
    (hT : CollisionFree T) (hadvances : s.Advances T r)
    (hgraph : ∀ c, r.body.bind namedCommit = some c → c ∈ ids s.graph)
    (hwaiting : ∀ e ∈ w, e ∈ s.waiting ∧
      ∀ c, r.body.bind namedCommit = some c → ¬ Behind s.graph c e.2) :
    Bridged ({ s with waiting := w : Bridge}.advance T hT r) where
  chain := by
    obtain ⟨chain, hchain⟩ := h.chain
    refine ⟨_, trunkFrom_advance hT hadvances hchain.value, ?_, ?_⟩
    · rw [List.map_cons, List.nodup_cons, List.map_take]
      refine ⟨fun hmem => ?_, hchain.nodup.sublist (List.take_sublist _ _)⟩
      obtain ⟨e, he, heq⟩ := List.mem_map.mp (List.mem_of_mem_take hmem)
      have hreaches := (mem_trunkFrom s.free hchain.value he).1
      rw [heq] at hreaches
      exact hadvances.fresh (hreaches.mono hadvances.sub hT)
    · intro e he c hc
      rcases List.mem_cons.mp he with rfl | he
      · exact hgraph c ((commitOf_new h hT hadvances) ▸ hc)
      · exact hchain.graph e (List.mem_of_mem_take he) c hc
  tips := h.tips
  recorded e he := hadvances.reaches hT ((h.recorded e he).mono hadvances.sub hT)
  mapped c r' hr' := by
    obtain ⟨hreaches, rev, hget, hcommit⟩ := h.mapped c r' hr'
    exact ⟨hadvances.reaches hT (hreaches.mono hadvances.sub hT), rev,
      (lasting_get Revision r').lasts hadvances.sub hT hget, hcommit⟩
  waiting e he := by
    obtain ⟨hmem, hclear⟩ := hwaiting e he
    obtain ⟨hunknown, hline, hahead⟩ := h.waiting e hmem
    refine ⟨hunknown, hline, fun k hk => ?_⟩
    have hk : Knows (s.advance T hT r) k := hk.congr rfl rfl rfl
    rcases hk.of_advance h hT hadvances with hnamed | ⟨_, hk⟩
    · exact hclear k hnamed
    · exact hahead k hk
  made e he := by
    obtain ⟨rev, hget, hcommit⟩ := h.made e he
    exact ⟨rev, (lasting_get Revision e.1).lasts hadvances.sub hT hget, hcommit⟩

theorem Knows.of_store {T : Store} {k : CommitId} (hkept : Bridged s) (hT : CollisionFree T)
    (hsub : s.store ⊆ T) (h : Knows { s with store := T, free := hT } k) : Knows s k := by
  obtain ⟨chain, hchain⟩ := hkept.chain
  obtain ⟨chain', hvalue, hfind⟩ := h
  cases hvalue.symm.trans ((lasting_trunkFrom _ _).lasts hsub hT hchain.value)
  exact ⟨chain, hchain.value, hfind⟩

/-- More is stored, and more is made of commits or waits. -/
theorem Bridged.store {T : Store} {w : List (String × CommitId)} {m : List (ObjectId × CommitId)}
    (h : Bridged s) (hT : CollisionFree T) (hsub : s.store ⊆ T) (hwaiting : ∀ e ∈ w, Waits s e)
    (hmade : ∀ e ∈ m, ∃ rev, (get Revision e.1).value T = .ok rev ∧
      s.commitOf e.1 rev = some e.2) :
    Bridged { s with store := T, free := hT, waiting := w, made := m } where
  chain := by
    obtain ⟨chain, hchain⟩ := h.chain
    exact ⟨chain, (lasting_trunkFrom _ _).lasts hsub hT hchain.value, hchain.nodup, hchain.graph⟩
  tips := h.tips
  recorded e he := (h.recorded e he).mono hsub hT
  mapped c r hr := by
    obtain ⟨hreaches, rev, hget, hcommit⟩ := h.mapped c r hr
    exact ⟨hreaches.mono hsub hT, rev, (lasting_get Revision r).lasts hsub hT hget, hcommit⟩
  waiting e he := by
    obtain ⟨hunknown, hline, hahead⟩ := hwaiting e he
    refine ⟨hunknown, hline, fun k hk => hahead k (Knows.of_store h hT hsub ?_)⟩
    exact hk.congr rfl rfl rfl
  made := hmade

theorem Bridged.made_store {T : Store} (h : Bridged s) (hT : CollisionFree T) (hsub : s.store ⊆ T) :
    ∀ e ∈ s.made, ∃ rev, (get Revision e.1).value T = .ok rev ∧ s.commitOf e.1 rev = some e.2 := by
  intro e he
  obtain ⟨rev, hget, hcommit⟩ := h.made e he
  exact ⟨rev, (lasting_get Revision e.1).lasts hsub hT hget, hcommit⟩

end Knowing

section Importing

variable [Crypto] {s s' : Bridge} {T : Store} {branch : String} {history : Bool}
  {n : Node CommitId Content} {rev l : Revision} {commits : List CommitId}

theorem Bridge.Takes.body (h : s.Takes history T n rev l) :
    rev.body = some (importedBody n.id n.data) ∧ l.body = some (importedBody n.id n.data) := by
  obtain ⟨a, rfl⟩ := h.arrives.imported
  obtain ⟨snap, time, rfl⟩ := h.landing
  refine ⟨rfl, ?_⟩
  rw [importLanding]
  split <;> rfl

omit [Crypto] in
/-- A commit of a plain message is what the body of its revision names. -/
theorem named_of_plain {r : Revision} (hbody : r.body = some (importedBody n.id n.data))
    (hplain : Plain n.data.message n.id) : r.body.bind namedCommit = some n.id := by
  rw [hbody, Option.bind_some]
  exact (namedCommit_importedBody_iff n.id n.data).mpr hplain

theorem Bridged.take (h : Bridged s) (hT : CollisionFree T) (htakes : s.Takes history T n rev l)
    (hplain : Plain n.data.message n.id) (hwaiting : s.waiting = []) :
    Bridged (s.take T hT n.id rev l) ∧
      ∀ k, Knows (s.take T hT n.id rev l) k → k = n.id := by
  have hnamed := named_of_plain htakes.body.2 hplain
  have hcommit := (commitOf_new h hT htakes.advances).trans hnamed
  have hadvanced : Bridged (s.advance T hT l) := by
    refine h.advance hT htakes.advances (fun c hc => ?_) fun e he => ?_
    · cases hnamed.symm.trans hc
      exact List.mem_map_of_mem htakes.arrives.mem
    · rw [hwaiting] at he
      cases he
  have hmade : ∀ e ∈ (revisionId l, n.id) :: (revisionId rev, n.id) :: s.made,
      ∃ r, (get Revision e.1).value T = .ok r ∧ s.commitOf e.1 r = some e.2 := by
    refine List.forall_mem_cons.mpr ⟨⟨l, value_get_advances hT htakes.advances, hcommit⟩, ?_⟩
    refine List.forall_mem_cons.mpr ⟨?_, hadvanced.made⟩
    have hputs := htakes.arrives.puts
    exact ⟨rev, value_get_advances hT hputs,
      (commitOf_new h hT hputs).trans (named_of_plain htakes.body.1 hplain)⟩
  constructor
  · exact hadvanced.store hT (List.Subset.refl T) hadvanced.waiting hmade
  · intro k hk
    have hk : Knows (s.advance T hT l) k := hk.congr rfl rfl rfl
    rcases hk.of_advance h hT htakes.advances with hk | ⟨hnone, _⟩
    · exact Option.some.inj (hk.symm.trans hnamed)
    · rw [hnamed] at hnone
      cases hnone

/-- What the loop has before it: commits of the branch's line, oldest first, that are
not behind what is known. -/
structure Ahead (s : Bridge) (branch : String) (commits : List CommitId) : Prop where
  onLine : ∃ tip, s.branches.get? branch = some tip ∧
    ∀ c ∈ commits, c ∈ firstParents s.graph (some tip)
  ahead : ∀ k, Knows s k → ∀ c ∈ commits, ¬ Behind s.graph k c
  order : commits.Pairwise fun older newer => ¬ Behind s.graph older newer
  plain : ∀ n ∈ s.graph, n.id ∈ commits → Plain n.data.message n.id

theorem Ahead.tail {c : CommitId} (h : Ahead s branch (c :: commits)) : Ahead s branch commits where
  onLine := by
    obtain ⟨tip, htip, hline⟩ := h.onLine
    exact ⟨tip, htip, fun c hc => hline c (List.mem_cons_of_mem _ hc)⟩
  ahead k hk c hc := h.ahead k hk c (List.mem_cons_of_mem _ hc)
  order := h.order.of_cons
  plain n hn hmem := h.plain n hn (List.mem_cons_of_mem _ hmem)

/-- What an import does keeps what holds, whatever it lands or is refused. -/
theorem Imports.kept (himports : Imports branch history s commits s') (h : Bridged s)
    (hwaiting : s.waiting = []) (hahead : Ahead s branch commits) : Bridged s' := by
  induction himports with
  | done => exact h
  | failed hT hsub => exact h.store hT hsub h.waiting (h.made_store hT hsub)
  | skipped _ _ ih => exact ih h hwaiting hahead.tail
  | @landed s s' n rest T rev l hT htakes _ ih =>
      have hplain := hahead.plain n htakes.arrives.mem List.mem_cons_self
      obtain ⟨htaken, hknows⟩ := h.take hT htakes hplain hwaiting
      have hcommit : (s.take T hT n.id rev l).commitOf (revisionId l) l = some n.id :=
        (commitOf_new h hT htakes.advances).trans (named_of_plain htakes.body.2 hplain)
      refine ih ?_ hwaiting ?_
      · refine htaken.remember .refl (value_get_advances hT htakes.advances) (fun c hc => ?_)
          (List.mem_map_of_mem htakes.arrives.mem) fun w hw => ?_
        · exact htaken.same_of_is (value_get_advances hT htakes.advances) hcommit hc
        · have hnone : w ∈ s.waiting := hw
          rw [hwaiting] at hnone
          cases hnone
      · refine { hahead.tail with ahead := fun k hk c hc => ?_ }
        have hk : k = n.id := by
          rcases hk.of_remember with hk | hk
          · exact hknows k hk
          · exact hk
        rw [hk]
        exact List.rel_of_pairwise_cons hahead.order hc
  | @unrecorded s n rest T rev l hT htakes =>
      exact (h.take hT htakes (hahead.plain n htakes.arrives.mem List.mem_cons_self) hwaiting).1
  | @refused s n rest T rev hT harrives =>
      have hsub := harrives.puts.sub
      refine h.store hT hsub (List.forall_mem_cons.mpr ⟨?_, h.waiting⟩)
        (List.forall_mem_cons.mpr ⟨?_, h.made_store hT hsub⟩)
      · obtain ⟨tip, htip, hline⟩ := hahead.onLine
        exact ⟨harrives.new, ⟨tip, htip, hline _ List.mem_cons_self⟩,
          fun k hk => hahead.ahead k hk _ List.mem_cons_self⟩
      · obtain ⟨a, ha⟩ := harrives.imported
        have hbody : rev.body = some (importedBody n.id n.data) := by rw [ha]; rfl
        exact ⟨rev, value_get_advances hT harrives.puts, (commitOf_new h hT harrives.puts).trans
          (named_of_plain hbody (hahead.plain n harrives.mem List.mem_cons_self))⟩

end Importing

section Listing

variable [Crypto] {s : Bridge} {branch : String} {commits : List CommitId} {tip k : CommitId}
  {chain : List (ObjectId × Revision)}

theorem value_trunkChain {S : Store} {head : ObjectId}
    (h : (trunkFrom 100001 head).value S = .ok chain) :
    (trunkChain head).value S = .ok chain.reverse := by
  rw [trunkChain, (bind_of_ok h).1]
  rfl

theorem Chained.known (h : Chained s chain) :
    Knows s k ↔ s.known chain.reverse = some k := by
  rw [known_reverse]
  constructor
  · rintro ⟨chain', hvalue, hfind⟩
    cases hvalue.symm.trans h.value
    exact hfind
  · exact fun hfind => ⟨chain, h.value, hfind⟩

theorem Chained.mem_graph (h : Chained s chain) (hk : Knows s k) : k ∈ ids s.graph := by
  obtain ⟨chain', hvalue, hfind⟩ := hk
  cases hvalue.symm.trans h.value
  obtain ⟨e, he, hcommit⟩ := List.exists_of_findSome?_eq_some hfind
  exact h.graph e he k hcommit

theorem Chained.listed_eq (h : Chained s chain) (htip : s.branches.get? branch = some tip) :
    s.listed branch = s.revList (s.known chain.reverse) tip := by
  rw [Bridge.listed, htip, value_trunkChain h.value]
  rfl

/-- What an import lists: the line of the branch, oldest first, less what is known. -/
theorem Chained.listed_iff (h : Chained s chain) (htip : s.branches.get? branch = some tip) :
    ∃ commits, s.listed branch = some commits ∧ ∀ c, c ∈ commits ↔
      c ∈ firstParents s.graph (some tip) ∧ ∀ k, Knows s k → ¬ Behind s.graph k c := by
  rw [h.listed_eq htip]
  cases hknown : s.known chain.reverse with
  | none =>
      have hnone : ∀ k, ¬ Knows s k := fun k hk => by
        rw [h.known, hknown] at hk
        cases hk
      exact ⟨_, rfl, fun c => ⟨fun hc => ⟨List.mem_reverse.mp hc, fun k hk => absurd hk (hnone k)⟩,
        fun hc => List.mem_reverse.mpr hc.1⟩⟩
  | some k =>
      have hk : ∀ k', Knows s k' ↔ k' = k := fun k' => by
        rw [h.known, hknown]
        exact ⟨fun heq => (Option.some.inj heq).symm, fun heq => congrArg some heq.symm⟩
      refine ⟨_, if_pos (h.mem_graph ((hk k).mpr rfl)), fun c => ?_⟩
      rw [List.mem_filter, List.mem_reverse, decide_eq_true_iff]
      refine and_congr_right fun _ => ⟨fun hnot k' hk' => ?_, fun hall => hall k ((hk k).mpr rfl)⟩
      rw [(hk k').mp hk']
      exact hnot

theorem listed_order (h : s.listed branch = some commits) :
    commits.Pairwise fun older newer => ¬ Behind s.graph older newer := by
  have hline : ∀ tip, (firstParents s.graph (some tip)).reverse.Pairwise
      fun older newer => ¬ Behind s.graph older newer := fun tip =>
    List.pairwise_reverse.mpr (s.grown.firstParents_pairwise (some tip))
  obtain ⟨tip, _, h⟩ := Option.bind_eq_some_iff.mp h
  obtain ⟨chain, _, h⟩ := Option.bind_eq_some_iff.mp h
  unfold Bridge.revList at h
  split at h
  · cases h
    exact hline tip
  · split_ifs at h
    cases h
    exact (hline tip).filter _

theorem Bridged.ahead (h : Bridged s) (hlisted : s.listed branch = some commits)
    (hplain : ∀ n ∈ s.graph, n.id ∈ commits → Plain n.data.message n.id) :
    Ahead s branch commits := by
  obtain ⟨chain, hchain⟩ := h.chain
  obtain ⟨tip, htip, _⟩ := Option.bind_eq_some_iff.mp hlisted
  obtain ⟨commits', hlisted', hmem⟩ := hchain.listed_iff htip
  cases hlisted.symm.trans hlisted'
  exact {
    onLine := ⟨tip, htip, fun c hc => ((hmem c).mp hc).1⟩
    ahead := fun k hk c hc => ((hmem c).mp hc).2 k hk
    order := listed_order hlisted
    plain := hplain }

/-- A commit that waits is offered again. -/
theorem Bridged.offered (h : Bridged s) {w : String × CommitId} (hw : w ∈ s.waiting) :
    ∃ commits, s.offered w.1 = some commits ∧ w.2 ∈ commits := by
  obtain ⟨hunknown, ⟨tip, htip, hline⟩, hahead⟩ := h.waiting w hw
  obtain ⟨chain, hchain⟩ := h.chain
  obtain ⟨commits, hlisted, hmem⟩ := hchain.listed_iff htip
  refine ⟨_, congrArg _ hlisted, List.mem_filter.mpr ⟨(hmem w.2).mpr ⟨hline, hahead⟩, ?_⟩⟩
  rw [hunknown]
  rfl

end Listing

end Tessra.Daemon
