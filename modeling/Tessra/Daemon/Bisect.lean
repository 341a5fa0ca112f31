import Tessra.Redb.Records
import Tessra.Semantic.Merging

namespace Tessra.Daemon

open Tessra.Core Tessra.Data
open Tessra.Redb (utf8)
open Tessra.Semantic.Merge (slice)

/-! The bisection of the trunk by one test, and what its cache answers. -/

def unitAt (idx : NodeIndex) (n : EntityId) : Option Node := idx.nodes.reverse.find? (·.nid = n)

def depsAt (idx : NodeIndex) (n : EntityId) : List EntityId :=
  ((unitAt idx n).bind (·.deps)).getD []

section Closures

/-- The queue from the first unit on that is new. -/
def fresh (test : EntityId) (queue closure : List EntityId) : List EntityId :=
  queue.dropWhile fun n => n = test || n ∈ closure

/-- The units that the queue leads to, as long as there is room for them. -/
def closureFrom (idx : NodeIndex) (test : EntityId) :
    ℕ → List EntityId → List EntityId → List EntityId
  | 0, queue, closure => closure ++ (fresh test queue closure).take 1
  | room + 1, queue, closure =>
      match fresh test queue closure with
      | [] => closure
      | n :: queue => closureFrom idx test room (queue ++ depsAt idx n) (closure ++ [n])

end Closures

/-- The caller's revision, with the test and the text of its file. -/
structure BisectCtx where
  idx : NodeIndex
  test : Node
  currentText : Bytes

/-- A revision of the trunk: its index, and the texts of its files. -/
structure Probed where
  idx : NodeIndex
  files : String → Bytes

inductive Report
  | passesAtHead
  | failsAtOldest
  | found (lastGood firstBad : ℕ)
deriving DecidableEq

/-- Test results by fingerprint, as they were attested. -/
abbrev Results := List (Bytes × Bool)

namespace BisectCtx

variable (cx : BisectCtx)

def starts : List EntityId := cx.test.deps.getD []

def closure : List EntityId :=
  (closureFrom cx.idx cx.test.nid 500 cx.starts []).insertionSort (· ≤ ·)

def currentTest : Bytes := slice cx.currentText cx.test.span.1 cx.test.span.2

/-- The test of the revision itself, if it has it. -/
def alreadyThere (rev : Probed) : Option Node :=
  rev.idx.nodes.find? fun n => n.path = cx.test.path ∧
    (n.nid = cx.test.nid ∨ n.kind = cx.test.kind ∧ n.name = cx.test.name)

/-- The text of the test that would run: the revision's own, or the caller's laid over. -/
def testText (rev : Probed) : Bytes :=
  (cx.alreadyThere rev).elim cx.currentTest fun n =>
    slice (rev.files n.path) n.span.1 n.span.2

/-- The units that the test that would run names. -/
def testDeps (rev : Probed) : List EntityId :=
  (cx.alreadyThere rev).elim cx.starts fun n => n.deps.getD []

/-- What is hashed of a unit: its id, and its body if it is there. -/
def hashed (idx : NodeIndex) (n : EntityId) : Bytes :=
  n.bytes ++ ((unitAt idx n).map (·.body)).elim (utf8 "missing") ObjectId.bytes

def fingerprintInput (rev : Probed) : Bytes :=
  cx.test.body.bytes ++ cx.closure.flatMap (hashed rev.idx)

section Probing

-- The hash, in hexadecimal, and what a run of the test at a revision gives.
variable (digest : Bytes → Bytes) (run : Probed → Bool)

def fingerprint (rev : Probed) : Bytes := digest (cx.fingerprintInput rev)

/-- Whether the test passes: as attested before, or by a run, which is attested. -/
def bisectProbe (results : Results) (rev : Probed) : Bool × Results :=
  match results.find? (·.1 = cx.fingerprint digest rev) with
  | some e => (e.2, results)
  | none => (run rev, results ++ [(cx.fingerprint digest rev, run rev)])

variable (seq : List Probed)

def probeAt (results : Results) (i : ℕ) : Bool × Results :=
  (seq[i]?).elim (false, results) (cx.bisectProbe digest run results)

/-- Halve the range, from a revision that passes to one that fails. -/
def narrow : ℕ → Results → ℕ → ℕ → (ℕ × ℕ) × Results
  | 0, results, lo, hi => ((lo, hi), results)
  | fuel + 1, results, lo, hi =>
      if 1 < hi - lo then
        let mid := (lo + hi) / 2
        let (passed, results) := cx.probeAt digest run seq results mid
        if passed then narrow fuel results mid hi else narrow fuel results lo mid
      else ((lo, hi), results)

/-- The oldest revision comes first. -/
def bisect (results : Results) : Except Error (Report × Results) :=
  if seq.length < 2 then
    .error (.verb "HISTORY" "trunk needs at least two revisions to bisect")
  else
    let (headOk, results) := cx.probeAt digest run seq results (seq.length - 1)
    if headOk then .ok (.passesAtHead, results)
    else
      let (oldOk, results) := cx.probeAt digest run seq results 0
      if !oldOk then .ok (.failsAtOldest, results)
      else
        let ((lo, hi), results) :=
          cx.narrow digest run seq seq.length results 0 (seq.length - 1)
        .ok (.found lo hi, results)

end Probing

end BisectCtx

section Reaching

variable {idx : NodeIndex} {test : EntityId} {starts queue closure : List EntityId}
  {u : EntityId}

/-- The units that some units lead to by the dependencies of an index. -/
inductive Reaches (idx : NodeIndex) (starts : List EntityId) : EntityId → Prop
  | start {u : EntityId} (h : u ∈ starts) : Reaches idx starts u
  | step {u v : EntityId} (h : Reaches idx starts u) (hv : v ∈ depsAt idx u) :
      Reaches idx starts v

theorem mem_of_fresh_eq_nil (h : fresh test queue closure = []) (hu : u ∈ queue) :
    u = test ∨ u ∈ closure := by
  simpa using List.dropWhile_eq_nil_iff.mp h u hu

theorem fresh_cons {n : EntityId} {rest : List EntityId}
    (h : fresh test queue closure = n :: rest) : (n ≠ test ∧ n ∉ closure) ∧
      (∀ u ∈ queue, u = test ∨ u ∈ closure ∨ u = n ∨ u ∈ rest) ∧ ∀ u ∈ n :: rest, u ∈ queue := by
  have hsplit := List.takeWhile_append_dropWhile (l := queue)
    (p := fun n => n = test || n ∈ closure)
  unfold fresh at h
  rw [h] at hsplit
  refine ⟨?_, fun u hu => ?_, fun u hu => ?_⟩
  · have hhead := List.head_dropWhile_not (fun n => n = test || n ∈ closure)
      (l := queue) (by rw [h]; exact List.cons_ne_nil n rest)
    simpa [h] using hhead
  · rw [← hsplit] at hu
    rcases List.mem_append.mp hu with hu | hu
    · have hpass := List.mem_takeWhile_imp hu
      simp only [Bool.or_eq_true, decide_eq_true_eq] at hpass
      rcases hpass with hpass | hpass
      · exact Or.inl hpass
      · exact Or.inr (Or.inl hpass)
    · exact Or.inr (Or.inr (List.mem_cons.mp hu))
  · rw [← hsplit]
    exact List.mem_append_right _ hu

/-- Where the test reaches few units, the loop finds them all. -/
theorem mem_closureFrom (htest : ∀ d ∈ depsAt idx test, d ∈ starts) {few : List EntityId}
    (hlen : few.length ≤ 500) (hfew : ∀ u, Reaches idx starts u → u ≠ test → u ∈ few) :
    ∀ {room queue closure}, closure.Nodup → closure.length + room = 500 →
      (∀ u ∈ closure, Reaches idx starts u ∧ u ≠ test) →
      (∀ u ∈ queue, Reaches idx starts u) →
      (∀ u ∈ starts, u = test ∨ u ∈ closure ∨ u ∈ queue) →
      (∀ u ∈ closure, ∀ d ∈ depsAt idx u, d = test ∨ d ∈ closure ∨ d ∈ queue) →
      ∀ u, Reaches idx starts u → u = test ∨ u ∈ closureFrom idx test room queue closure := by
  have hdone : ∀ {queue closure : List EntityId}, fresh test queue closure = [] →
      (∀ u ∈ starts, u = test ∨ u ∈ closure ∨ u ∈ queue) →
      (∀ u ∈ closure, ∀ d ∈ depsAt idx u, d = test ∨ d ∈ closure ∨ d ∈ queue) →
      ∀ u, Reaches idx starts u → u = test ∨ u ∈ closure := by
    intro queue closure hfresh hstarts hdeps u hu
    have hseen : ∀ d, d = test ∨ d ∈ closure ∨ d ∈ queue → d = test ∨ d ∈ closure := by
      rintro d (hd | hd | hd)
      · exact Or.inl hd
      · exact Or.inr hd
      · exact mem_of_fresh_eq_nil hfresh hd
    induction hu with
    | start h => exact hseen _ (hstarts _ h)
    | step _ hv ih =>
        rcases ih with rfl | ih
        · exact hseen _ (hstarts _ (htest _ hv))
        · exact hseen _ (hdeps _ ih _ hv)
  intro room
  induction room with
  | zero =>
      intro queue closure hnodup hroom hclosure hqueue hstarts hdeps u hu
      cases hfresh : fresh test queue closure with
      | nil =>
          rw [closureFrom, hfresh]
          simpa using hdone hfresh hstarts hdeps u hu
      | cons n rest =>
          -- The unit found last is one too many.
          obtain ⟨⟨hne, hn⟩, -, hrest⟩ := fresh_cons hfresh
          have hall : n :: closure ⊆ few := by
            intro v hv
            rcases List.mem_cons.mp hv with rfl | hv
            · exact hfew v (hqueue v (hrest v List.mem_cons_self)) hne
            · exact hfew v (hclosure v hv).1 (hclosure v hv).2
          have hcount := (List.Nodup.subperm (List.nodup_cons.mpr ⟨hn, hnodup⟩) hall).length_le
          rw [List.length_cons] at hcount
          omega
  | succ room ih =>
      intro queue closure hnodup hroom hclosure hqueue hstarts hdeps u hu
      cases hfresh : fresh test queue closure with
      | nil =>
          rw [closureFrom, hfresh]
          exact hdone hfresh hstarts hdeps u hu
      | cons n rest =>
          obtain ⟨⟨hne, hn⟩, hsplit, hrest⟩ := fresh_cons hfresh
          have hreach : Reaches idx starts n := hqueue n (hrest n List.mem_cons_self)
          have hmoved : ∀ d, d = test ∨ d ∈ closure ∨ d ∈ queue →
              d = test ∨ d ∈ closure ++ [n] ∨ d ∈ rest ++ depsAt idx n := by
            rintro d (hd | hd | hd)
            · exact Or.inl hd
            · exact Or.inr (Or.inl (List.mem_append_left _ hd))
            · rcases hsplit d hd with h | h | rfl | h
              · exact Or.inl h
              · exact Or.inr (Or.inl (List.mem_append_left _ h))
              · exact Or.inr (Or.inl (by simp))
              · exact Or.inr (Or.inr (List.mem_append_left _ h))
          rw [closureFrom, hfresh]
          refine ih ?_ ?_ ?_ ?_ ?_ ?_ u hu
          · exact List.nodup_append.mpr ⟨hnodup, by simp, by
              rintro a ha b hb rfl
              exact hn (List.mem_singleton.mp hb ▸ ha)⟩
          · simp only [List.length_append, List.length_singleton]
            omega
          · intro v hv
            rcases List.mem_append.mp hv with hv | hv
            · exact hclosure v hv
            · exact List.mem_singleton.mp hv ▸ ⟨hreach, hne⟩
          · intro v hv
            rcases List.mem_append.mp hv with hv | hv
            · exact hqueue v (hrest v (List.mem_cons_of_mem n hv))
            · exact .step hreach hv
          · exact fun v hv => hmoved v (hstarts v hv)
          · intro v hv d hd
            rcases List.mem_append.mp hv with hv | hv
            · exact hmoved d (hdeps v hv d hd)
            · rw [List.mem_singleton.mp hv] at hd
              exact Or.inr (Or.inr (List.mem_append_right _ hd))

end Reaching

section Fingerprints

/-- No body in the index reads as a missing unit. -/
def Marked (idx : NodeIndex) : Prop :=
  ∀ n node, unitAt idx n = some node → ¬ utf8 "missing" <+: node.body.bytes

theorem agree_of_hashed {idx idx' : NodeIndex} (h : Marked idx) (h' : Marked idx') :
    ∀ {closure : List EntityId},
      closure.flatMap (BisectCtx.hashed idx) = closure.flatMap (BisectCtx.hashed idx') →
      ∀ n ∈ closure, (unitAt idx n).map (·.body) = (unitAt idx' n).map (·.body)
  | [], _ => fun _ hn => absurd hn List.not_mem_nil
  | n :: closure, heq => by
      have hlen : (utf8 "missing").length ≤ 32 := by decide
      simp only [List.flatMap_cons, BisectCtx.hashed, List.append_assoc,
        List.append_cancel_left_eq] at heq
      have hsame : (unitAt idx n).map (·.body) = (unitAt idx' n).map (·.body) ∧
          closure.flatMap (BisectCtx.hashed idx) = closure.flatMap (BisectCtx.hashed idx') := by
        cases hn : unitAt idx n with
        | none =>
            cases hn' : unitAt idx' n with
            | none =>
                rw [hn, hn'] at heq
                exact ⟨rfl, List.append_cancel_left heq⟩
            | some node =>
                rw [hn, hn'] at heq
                refine absurd ?_ (h' n node hn')
                exact List.prefix_of_prefix_length_le ⟨_, heq⟩ (List.prefix_append _ _)
                  (node.body.length_bytes.symm ▸ hlen)
        | some node =>
            cases hn' : unitAt idx' n with
            | none =>
                rw [hn, hn'] at heq
                refine absurd ?_ (h n node hn)
                exact List.prefix_of_prefix_length_le ⟨_, heq.symm⟩ (List.prefix_append _ _)
                  (node.body.length_bytes.symm ▸ hlen)
            | some node' =>
                rw [hn, hn'] at heq
                obtain ⟨hbody, hrest⟩ := List.append_inj heq
                  (node.body.length_bytes.trans node'.body.length_bytes.symm)
                exact ⟨congrArg some (ObjectId.bytes_injective hbody), hrest⟩
      intro m hm
      rcases List.mem_cons.mp hm with rfl | hm
      · exact hsame.1
      · exact agree_of_hashed h h' hsame.2 m hm

end Fingerprints

namespace BisectCtx

variable {cx : BisectCtx} {digest : Bytes → Bytes} {run : Probed → Bool} {known : Set Probed}
  {i j rev : Probed} {u : EntityId}

/-- The test is the unit of its id in the caller's index, and reaches few others there. -/
structure Settled (cx : BisectCtx) : Prop where
  test : unitAt cx.idx cx.test.nid = some cx.test
  few : ∃ few : List EntityId, few.length ≤ 500 ∧
    ∀ u, Reaches cx.idx cx.starts u → u ≠ cx.test.nid → u ∈ few

/-- At the revision the caller's test runs, on units that it reaches in the caller's
index. -/
structure Covered (cx : BisectCtx) (rev : Probed) : Prop where
  text : cx.testText rev = cx.currentTest
  present : ∀ u, Reaches rev.idx (cx.testDeps rev) u → unitAt rev.idx u ≠ none
  current : ∀ u, Reaches rev.idx (cx.testDeps rev) u → Reaches cx.idx cx.starts u
  self : Reaches cx.idx cx.starts cx.test.nid →
    (unitAt rev.idx cx.test.nid).map (·.body) = some cx.test.body

/-- No two inputs of the known revisions collide, and no body there reads as a missing
unit. -/
structure Hashed (cx : BisectCtx) (digest : Bytes → Bytes) (known : Set Probed) : Prop where
  inputs : ∀ i ∈ known, ∀ j ∈ known, cx.fingerprint digest i = cx.fingerprint digest j →
    cx.fingerprintInput i = cx.fingerprintInput j
  bodies : ∀ i ∈ known, Marked i.idx

/-- The same text of the test runs, on the same bodies. -/
def Alike (cx : BisectCtx) (i j : Probed) : Prop :=
  cx.testText i = cx.testText j ∧
    ∀ u, Reaches i.idx (cx.testDeps i) u ∨ Reaches j.idx (cx.testDeps j) u →
      ∃ n m, unitAt i.idx u = some n ∧ unitAt j.idx u = some m ∧ n.body = m.body

theorem mem_closure (h : cx.Settled) (hu : Reaches cx.idx cx.starts u) :
    u = cx.test.nid ∨ u ∈ cx.closure := by
  obtain ⟨few, hlen, hfew⟩ := h.few
  have htest : ∀ d ∈ depsAt cx.idx cx.test.nid, d ∈ cx.starts := by
    rw [depsAt, h.test]
    exact fun d hd => hd
  have hfound := mem_closureFrom htest hlen hfew List.nodup_nil (Nat.zero_add 500)
    (fun u hu => absurd hu List.not_mem_nil) (fun u hu => .start hu)
    (fun u hu => Or.inr (Or.inr hu)) (fun u hu => absurd hu List.not_mem_nil) u hu
  exact hfound.imp_right (List.perm_insertionSort _ _).mem_iff.mpr

/-- Where the inputs are the same, what the test reaches at one revision is at both. -/
theorem bodies_of_input (hcx : cx.Settled) (hi : cx.Covered i) (hj : cx.Covered j)
    (hmarked : Marked i.idx) (hmarked' : Marked j.idx)
    (h : cx.fingerprintInput i = cx.fingerprintInput j)
    (hu : Reaches i.idx (cx.testDeps i) u) :
    ∃ n m, unitAt i.idx u = some n ∧ unitAt j.idx u = some m ∧ n.body = m.body := by
  have hagree : (unitAt i.idx u).map (·.body) = (unitAt j.idx u).map (·.body) := by
    rcases mem_closure hcx (hi.current u hu) with rfl | hmem
    · rw [hi.self (hi.current _ hu), hj.self (hi.current _ hu)]
    · exact agree_of_hashed hmarked hmarked' (List.append_cancel_left h) u hmem
  obtain ⟨n, hn⟩ := Option.ne_none_iff_exists'.mp (hi.present u hu)
  rw [hn] at hagree
  obtain ⟨m, hm, hbody⟩ := Option.map_eq_some_iff.mp hagree.symm
  exact ⟨n, m, hn, hm, hbody.symm⟩

theorem alike_of_fingerprint (hcx : cx.Settled) (hhash : cx.Hashed digest known)
    (hi : i ∈ known) (hj : j ∈ known) (hci : cx.Covered i) (hcj : cx.Covered j)
    (h : cx.fingerprint digest i = cx.fingerprint digest j) : cx.Alike i j := by
  have hinput := hhash.inputs i hi j hj h
  refine ⟨hci.text.trans hcj.text.symm, ?_⟩
  rintro u (hu | hu)
  · exact bodies_of_input hcx hci hcj (hhash.bodies i hi) (hhash.bodies j hj) hinput hu
  · obtain ⟨n, m, hn, hm, hbody⟩ :=
      bodies_of_input hcx hcj hci (hhash.bodies j hj) (hhash.bodies i hi) hinput.symm hu
    exact ⟨m, n, hm, hn, hbody.symm⟩

/-- Every result was attested by a run at a known revision. -/
def Attested (cx : BisectCtx) (digest : Bytes → Bytes) (run : Probed → Bool)
    (known : Set Probed) (results : Results) : Prop :=
  ∀ e ∈ results, ∃ rev ∈ known, e = (cx.fingerprint digest rev, run rev)

/-- One fingerprint stands for one outcome. -/
def Determined (cx : BisectCtx) (digest : Bytes → Bytes) (run : Probed → Bool)
    (known : Set Probed) : Prop :=
  ∀ i ∈ known, ∀ j ∈ known, cx.fingerprint digest i = cx.fingerprint digest j → run i = run j

variable {results : Results} {seq : List Probed}

theorem bisectProbe_eq (hdet : cx.Determined digest run known)
    (h : cx.Attested digest run known results) (hrev : rev ∈ known) :
    (cx.bisectProbe digest run results rev).1 = run rev ∧
      cx.Attested digest run known (cx.bisectProbe digest run results rev).2 := by
  unfold bisectProbe
  cases hhit : results.find? (·.1 = cx.fingerprint digest rev) with
  | none =>
      refine ⟨rfl, fun e he => ?_⟩
      rcases List.mem_append.mp he with he | he
      · exact h e he
      · exact ⟨rev, hrev, List.mem_singleton.mp he⟩
  | some e =>
      obtain ⟨old, hold, rfl⟩ := h e (List.mem_of_find?_eq_some hhit)
      exact ⟨hdet old hold rev hrev (by simpa using List.find?_some hhit), h⟩

theorem probeAt_eq (hdet : cx.Determined digest run known)
    (h : cx.Attested digest run known results) (hseq : ∀ rev ∈ seq, rev ∈ known) {k : ℕ}
    (hk : k < seq.length) :
    (seq[k]?).map run = some (cx.probeAt digest run seq results k).1 ∧
      cx.Attested digest run known (cx.probeAt digest run seq results k).2 := by
  have hget : seq[k]? = some seq[k] := List.getElem?_eq_getElem hk
  obtain ⟨hrun, hrest⟩ := bisectProbe_eq hdet h (hseq seq[k] (List.getElem_mem hk))
  rw [probeAt, hget, Option.elim_some]
  exact ⟨congrArg some hrun.symm, hrest⟩

theorem narrow_eq (hdet : cx.Determined digest run known) (hseq : ∀ rev ∈ seq, rev ∈ known) :
    ∀ {fuel lo hi results}, cx.Attested digest run known results → lo < hi →
      hi < seq.length → hi - lo ≤ fuel + 1 → (seq[lo]?).map run = some true →
      (seq[hi]?).map run = some false →
      (cx.narrow digest run seq fuel results lo hi).1.2 =
          (cx.narrow digest run seq fuel results lo hi).1.1 + 1 ∧
        (seq[(cx.narrow digest run seq fuel results lo hi).1.1]?).map run = some true ∧
        (seq[(cx.narrow digest run seq fuel results lo hi).1.2]?).map run = some false ∧
        cx.Attested digest run known (cx.narrow digest run seq fuel results lo hi).2 := by
  intro fuel
  induction fuel with
  | zero =>
      intro lo hi results h hlt hhi hfuel hlo hbad
      have hnext : hi = lo + 1 := by omega
      exact ⟨hnext, hlo, hbad, h⟩
  | succ fuel ih =>
      intro lo hi results h hlt hhi hfuel hlo hbad
      rw [narrow]
      split_ifs with hwide
      · obtain ⟨hrun, hrest⟩ := probeAt_eq hdet h hseq (k := (lo + hi) / 2) (by omega)
        cases hpass : (cx.probeAt digest run seq results ((lo + hi) / 2)).1 with
        | true =>
            rw [hpass] at hrun
            simp only [hpass, if_true]
            exact ih hrest (by omega) hhi (by omega) hrun hbad
        | false =>
            rw [hpass] at hrun
            simp only [hpass, Bool.false_eq_true, if_false]
            exact ih hrest (by omega) (by omega) (by omega) hlo hrun
      · have hnext : hi = lo + 1 := by omega
        exact ⟨hnext, hlo, hbad, h⟩

end BisectCtx

/-- What the report says is what runs at the revisions of the trunk would give. -/
def Report.Holds (run : Probed → Bool) (seq : List Probed) : Report → Prop
  | .passesAtHead => (seq[seq.length - 1]?).map run = some true
  | .failsAtOldest => (seq[0]?).map run = some false
  | .found lo hi => hi = lo + 1 ∧ (seq[lo]?).map run = some true ∧
      (seq[hi]?).map run = some false

section Sound

variable {cx : BisectCtx} {digest : Bytes → Bytes} {run : Probed → Bool} {known : Set Probed}
  {results results' : Results} {seq : List Probed} {report : Report}

theorem holds_of_bisect (hdet : cx.Determined digest run known)
    (hseq : ∀ rev ∈ seq, rev ∈ known) (h : cx.Attested digest run known results)
    (hok : cx.bisect digest run seq results = .ok (report, results')) :
    report.Holds run seq ∧ cx.Attested digest run known results' := by
  unfold BisectCtx.bisect at hok
  split_ifs at hok with hlen
  obtain ⟨hhead, hrest⟩ := BisectCtx.probeAt_eq hdet h hseq (k := seq.length - 1) (by omega)
  revert hhead hrest hok
  rcases cx.probeAt digest run seq results (seq.length - 1) with ⟨headOk, middle⟩
  intro hok hhead hrest
  cases headOk with
  | true =>
      obtain ⟨rfl, rfl⟩ := Prod.mk.inj (Except.ok.inj hok)
      exact ⟨hhead, hrest⟩
  | false =>
      obtain ⟨hold, hlast⟩ := BisectCtx.probeAt_eq hdet hrest hseq (k := 0) (by omega)
      revert hold hlast hok
      simp only [Bool.false_eq_true, if_false]
      rcases cx.probeAt digest run seq middle 0 with ⟨oldOk, after⟩
      intro hok hold hlast
      cases oldOk with
      | false =>
          obtain ⟨rfl, rfl⟩ := Prod.mk.inj (Except.ok.inj hok)
          exact ⟨hold, hlast⟩
      | true =>
          obtain ⟨rfl, rfl⟩ := Prod.mk.inj (Except.ok.inj hok)
          obtain ⟨hnext, hgood, hbad, hall⟩ := BisectCtx.narrow_eq hdet hseq hlast
            (show 0 < seq.length - 1 by omega) (by omega)
            (show seq.length - 1 - 0 ≤ seq.length + 1 by omega) hold hhead
          exact ⟨⟨hnext, hgood, hbad⟩, hall⟩

/-- Over revisions that the caller's closure covers, one fingerprint stands for one text of
the test and one set of bodies; so, where these decide the outcome, each answer is what a
run gives, and so is the report. -/
theorem bisect_sound (hcx : cx.Settled) (hhash : cx.Hashed digest known)
    (hcovered : ∀ rev ∈ known, cx.Covered rev) :
    (∀ i ∈ known, ∀ j ∈ known, cx.fingerprint digest i = cx.fingerprint digest j →
      cx.Alike i j) ∧
    ((∀ i ∈ known, ∀ j ∈ known, cx.Alike i j → run i = run j) →
      cx.Attested digest run known results →
      (∀ rev ∈ known, (cx.bisectProbe digest run results rev).1 = run rev) ∧
      ∀ seq : List Probed, (∀ rev ∈ seq, rev ∈ known) → ∀ report results',
        cx.bisect digest run seq results = .ok (report, results') →
        report.Holds run seq ∧ cx.Attested digest run known results') := by
  have halike : ∀ i ∈ known, ∀ j ∈ known,
      cx.fingerprint digest i = cx.fingerprint digest j → cx.Alike i j := fun i hi j hj h =>
    BisectCtx.alike_of_fingerprint hcx hhash hi hj (hcovered i hi) (hcovered j hj) h
  refine ⟨halike, fun hrun hattested => ?_⟩
  have hdet : cx.Determined digest run known := fun i hi j hj h =>
    hrun i hi j hj (halike i hi j hj h)
  exact ⟨fun rev hrev => (BisectCtx.bisectProbe_eq hdet hattested hrev).1,
    fun seq hseq report results' hok => holds_of_bisect hdet hseq hattested hok⟩

end Sound

section Samples

/-! A test that calls one unit, whose body changes once. -/

def sampleUnit (nid body : ℕ) (kind name : String) (deps : List EntityId) : Node where
  nid := .splat nid
  path := "a.rs"
  kind := kind
  name := name
  span := (0, 1)
  body := .splat body
  parent := none
  deps := some deps
  setlike := none

def sampleIndex (nodes : List Node) : NodeIndex where
  root := .splat 0
  grammars := ""
  parents := []
  nodes := nodes
  aliases := none

def caller : Node := sampleUnit 1 0 "test" "t" [.splat 2]

def called (body : ℕ) : NodeIndex :=
  sampleIndex [caller, sampleUnit 2 body "function" "f" []]

def calledAt (body : ℕ) : Probed := ⟨called body, fun _ => utf8 "t"⟩

def calledCtx : BisectCtx := ⟨called 4, caller, utf8 "t"⟩

def calledRuns (rev : Probed) : Bool :=
  (unitAt rev.idx (.splat 2)).map (·.body) = some (.splat 3)

theorem reaches_called {body : ℕ} {u : EntityId} (h : Reaches (called body) [.splat 2] u) :
    u = .splat 2 := by
  induction h with
  | start h => exact List.mem_singleton.mp h
  | step _ hv ih =>
      rw [ih] at hv
      exact absurd hv (by rw [show depsAt (called body) (.splat 2) = [] from rfl]; simp)

theorem unitAt_called (body : ℕ) :
    unitAt (called body) (.splat 2) = some (sampleUnit 2 body "function" "f" []) := rfl

theorem covered_called (body : ℕ) : calledCtx.Covered (calledAt body) where
  text := rfl
  present u hu := by
    obtain rfl := reaches_called hu
    rw [show (calledAt body).idx = called body from rfl, unitAt_called]
    simp
  current u hu := by
    obtain rfl := reaches_called hu
    exact .start (by decide)
  self h := absurd (reaches_called h) (by decide)

theorem bisect_sound_called :
    (∀ i ∈ ({calledAt 3, calledAt 4} : Set Probed), ∀ j ∈ ({calledAt 3, calledAt 4} : Set Probed),
      calledCtx.fingerprint id i = calledCtx.fingerprint id j → calledCtx.Alike i j) ∧
    ((∀ i ∈ ({calledAt 3, calledAt 4} : Set Probed),
        ∀ j ∈ ({calledAt 3, calledAt 4} : Set Probed),
          calledCtx.Alike i j → calledRuns i = calledRuns j) →
      calledCtx.Attested id calledRuns {calledAt 3, calledAt 4} [] →
      (∀ rev ∈ ({calledAt 3, calledAt 4} : Set Probed),
        (calledCtx.bisectProbe id calledRuns [] rev).1 = calledRuns rev) ∧
      ∀ seq : List Probed, (∀ rev ∈ seq, rev ∈ ({calledAt 3, calledAt 4} : Set Probed)) →
        ∀ report results', calledCtx.bisect id calledRuns seq [] = .ok (report, results') →
        report.Holds calledRuns seq ∧
          calledCtx.Attested id calledRuns {calledAt 3, calledAt 4} results') := by
  have hmarked : ∀ body, body = 3 ∨ body = 4 → Marked (called body) := by
    intro body hbody n node hnode
    have hmem : node ∈ (called body).nodes :=
      List.mem_reverse.mp (List.mem_of_find?_eq_some hnode)
    rcases List.mem_cons.mp hmem with rfl | hmem
    · decide
    · obtain rfl := List.mem_singleton.mp hmem
      rcases hbody with rfl | rfl <;> decide
  have hsettled : calledCtx.Settled :=
    ⟨rfl, [.splat 2], by simp, fun u hu _ => List.mem_singleton.mpr (reaches_called hu)⟩
  refine bisect_sound hsettled ⟨fun i _ j _ h => h, ?_⟩ ?_
  · rintro i (rfl | rfl)
    · exact hmarked 3 (Or.inl rfl)
    · exact hmarked 4 (Or.inr rfl)
  · rintro i (rfl | rfl)
    · exact covered_called 3
    · exact covered_called 4

/-! The test itself changes once, and does not pass since. -/

def changedTest (body : ℕ) : Node := sampleUnit 1 body "test" "t" []

def changedAt (body : ℕ) (text : String) : Probed :=
  ⟨sampleIndex [changedTest body], fun _ => utf8 text⟩

def changedCtx : BisectCtx := ⟨sampleIndex [changedTest 4], changedTest 4, utf8 "n"⟩

def changedRuns (rev : Probed) : Bool := changedCtx.testText rev = utf8 "y"

/-- The oldest revision, where its own test passes, is answered as the head is. -/
theorem older_test_answered :
    (¬ ∀ (cx : BisectCtx) (digest : Bytes → Bytes) (i j : Probed),
      cx.fingerprint digest i = cx.fingerprint digest j → cx.Alike i j) ∧
    (∃ results, changedCtx.bisect id changedRuns [changedAt 3 "y", changedAt 4 "n"] [] =
      .ok (.failsAtOldest, results)) ∧ changedRuns (changedAt 3 "y") = true := by
  refine ⟨fun h => ?_, ?_, by decide +kernel⟩
  · have hsame := (h changedCtx id (changedAt 3 "y") (changedAt 4 "n") (by decide +kernel)).1
    revert hsame
    decide +kernel
  · exact ⟨[(changedCtx.fingerprint id (changedAt 4 "n"), false)], by decide +kernel⟩

end Samples

end Tessra.Daemon
