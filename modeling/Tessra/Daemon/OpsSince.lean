import Tessra.Oplog.Heads

namespace Tessra.Data

universe u v

variable {α : Type u} {ε : Type v} [DecidableEq α] {next : α → Except ε (List α)} {stuck : ε}
  {fuel : ℕ} {seen queue : List α}

/-- A walk adds to what it had seen, and adds nothing twice. -/
theorem worklist_added {result : List α} (h : worklist next stuck fuel seen queue = .ok result) :
    ∃ added, result = added ++ seen ∧ added.Nodup ∧ ∀ x ∈ added, x ∉ seen := by
  fun_induction worklist next stuck fuel seen queue with
  | case1 seen =>
      cases h
      exact ⟨[], rfl, .nil, fun _ hx => (List.not_mem_nil hx).elim⟩
  | case2 => cases h
  | case3 _ _ _ _ _ ih => exact ih h
  | case4 => cases h
  | case5 fuel seen x queue hx out hout ih =>
      obtain ⟨added, rfl, hnodup, hdisjoint⟩ := ih h
      refine ⟨added ++ [x], (List.append_cons added x seen), ?_, ?_⟩
      · refine List.nodup_append.mpr ⟨hnodup, List.nodup_singleton x, fun y hy z hz heq => ?_⟩
        obtain rfl := List.mem_singleton.mp hz
        exact hdisjoint y hy (heq ▸ List.mem_cons_self)
      · intro y hy
        rcases List.mem_append.mp hy with hy | hy
        · exact fun hseen => hdisjoint y hy (List.mem_cons_of_mem x hseen)
        · exact List.mem_singleton.mp hy ▸ hx

end Tessra.Data

namespace Tessra.Daemon

open Tessra.Core Tessra.Data Tessra.Oplog StoreM OpLog

/-! What happened since a cursor, and what a client that passes on its cursors sees. -/

section Since

variable [Crypto]

/-- The ops that the heads lead to, up to those that are known, in the order of the walk. -/
def walkSince (log : OpLog) (stop : List ObjectId) : StoreM (List ObjectId) := fun S =>
  ⟨(worklist (parentsIn S) .outOfFuel (log.heads.length + (S.map parentCount).sum) stop
    log.heads).map fun seen => (seen.take (seen.length - stop.length)).reverse, []⟩

def stopAt : Option ObjectId → StoreM (List ObjectId)
  | none => pure []
  | some c => ancestors c

def timed : List ObjectId → StoreM (List (ℤ × ObjectId))
  | [] => pure []
  | id :: rest => do
      let op ← getOp id
      let more ← timed rest
      return (op.time, id) :: more

/-- The ops since a cursor, newest first. -/
def foundSince (log : OpLog) (cursor : Option ObjectId) : StoreM (List (ℤ × ObjectId)) := do
  let stop ← stopAt cursor
  let ids ← walkSince log stop
  let ops ← timed ids
  return ops.mergeSort fun a b => decide (b.1 ≤ a.1)

/-- The entries that there is room for, up to the first that is too long. -/
def shownWithin (cost : ObjectId → ℕ) : ℕ → List (ℤ × ObjectId) → List ObjectId
  | _, [] => []
  | left, (_, id) :: rest =>
      if left < cost id then [] else id :: shownWithin cost (left - cost id) rest

structure Since where
  entries : List ObjectId
  omitted : ℕ
  newest : Option ObjectId
deriving DecidableEq

/-- The ops since a cursor, cut to a character budget. -/
def opsSince (cost : ObjectId → ℕ) (log : OpLog) (cursor : Option ObjectId) (chars : ℕ) :
    StoreM Since := do
  let ops ← foundSince log cursor
  let out := shownWithin cost chars ops
  return ⟨out, ops.length - out.length, ops.head?.map Prod.snd⟩

end Since

section Walk

variable [Crypto] {S S' : Store} {log : OpLog} {stop ids : List ObjectId} {x c h : ObjectId}

omit [Crypto] in
theorem shownWithin_prefix (cost : ObjectId → ℕ) (chars : ℕ) (ops : List (ℤ × ObjectId)) :
    shownWithin cost chars ops <+: ops.map Prod.snd := by
  induction ops generalizing chars with
  | nil => exact List.nil_prefix
  | cons e rest ih =>
      rw [shownWithin, List.map_cons]
      split_ifs
      · exact List.nil_prefix
      · exact List.cons_prefix_cons.mpr ⟨rfl, ih _⟩

theorem walkSince_spec (hstop : Pending (parentsIn S) stop log.heads)
    (h : (walkSince log stop).value S = .ok ids) :
    ids.Nodup ∧ ∀ x, x ∈ ids ↔ x ∉ stop ∧ ∃ h ∈ log.heads, Ancestor S x h := by
  change (worklist (parentsIn S) .outOfFuel _ stop log.heads).map _ = .ok ids at h
  cases hwalk : worklist (parentsIn S) .outOfFuel
    (log.heads.length + (S.map parentCount).sum) stop log.heads with
  | error e =>
      rw [hwalk] at h
      cases h
  | ok seen =>
      rw [hwalk] at h
      obtain rfl := Except.ok.inj h
      have hmem := mem_worklist hstop hwalk
      obtain ⟨added, rfl, hnodup, hdisjoint⟩ := worklist_added hwalk
      have htake : (added ++ stop).take ((added ++ stop).length - stop.length) = added := by
        rw [List.length_append, Nat.add_sub_cancel, List.take_left]
      simp only [htake, List.nodup_reverse, List.mem_reverse]
      refine ⟨hnodup, fun x => ⟨fun hx => ⟨hdisjoint x hx, ?_⟩, fun hx => ?_⟩⟩
      · have hreach := ((hmem x).mp (List.mem_append_left _ hx)).resolve_left (hdisjoint x hx)
        obtain ⟨q, hq, hpath⟩ := hreach
        exact ⟨q, hq, ancestor_iff.mpr hpath⟩
      · obtain ⟨hout, q, hq, hpath⟩ := hx
        have hall := (hmem x).mpr (.inr ⟨q, hq, ancestor_iff.mp hpath⟩)
        exact (List.mem_append.mp hall).resolve_right hout

theorem walkSince_ok {dom : Finset ObjectId} (hdom : OpsClosed S dom)
    (hheads : ∀ h ∈ log.heads, h ∈ dom) (stop : List ObjectId) :
    ∃ ids, (walkSince log stop).value S = .ok ids := by
  have hle : ∑ x ∈ dom \ stop.toFinset, outDegree (parentsIn S) x ≤
      (S.map parentCount).sum :=
    (Finset.sum_le_sum_of_subset Finset.sdiff_subset).trans (sum_parents_le hdom)
  obtain ⟨seen, hseen⟩ : ∃ seen, worklist (parentsIn S) Error.outOfFuel _ stop log.heads =
      .ok seen := worklist_ok dom hdom hheads (Nat.add_le_add_left hle log.heads.length)
  refine ⟨(seen.take (seen.length - stop.length)).reverse, ?_⟩
  change (worklist (parentsIn S) .outOfFuel _ stop log.heads).map _ = _
  rw [hseen]
  rfl

theorem pending_stop (h : (stopAt (some c)).value S = .ok stop) :
    Pending (parentsIn S) stop log.heads := by
  intro y hy
  obtain ⟨parents, hparents, hmem⟩ := closed_ancestors h y (List.mem_toFinset.mpr hy)
  exact ⟨parents, hparents, fun p hp => .inl (List.mem_toFinset.mp (hmem p hp))⟩

theorem timed_ok (hops : ∀ x ∈ ids, ∃ op, (getOp x).value S = .ok op) :
    ∃ ops, (timed ids).value S = .ok ops ∧ (timed ids).after S = S ∧ ops.map Prod.snd = ids ∧
      ∀ e ∈ ops, ∃ op, (getOp e.2).value S = .ok op ∧ e.1 = op.time := by
  induction ids with
  | nil => exact ⟨[], rfl, after_pure _ S, rfl, fun _ he => nomatch he⟩
  | cons id rest ih =>
      obtain ⟨op, hop⟩ := hops id List.mem_cons_self
      obtain ⟨ops, hvalue, hafter, hids, htimes⟩ :=
        ih fun x hx => hops x (List.mem_cons_of_mem id hx)
      have hfirst := bind_of_ok (f := fun op => do
        let more ← timed rest
        return (op.time, id) :: more) hop
      have hrest := bind_of_ok (f := fun more => (pure ((op.time, id) :: more) :
        StoreM (List (ℤ × ObjectId)))) hvalue
      have hread : (getOp id).after S = S := readOnly_get Op id S
      rw [hread] at hfirst
      refine ⟨(op.time, id) :: ops, ?_, ?_, by rw [List.map_cons, hids], fun e he => ?_⟩
      · exact hfirst.1.trans hrest.1
      · exact hfirst.2.trans (hrest.2.trans ((after_pure _ _).trans hafter))
      · rcases List.mem_cons.mp he with rfl | he
        · exact ⟨op, hop, rfl⟩
        · exact htimes e he

theorem reach_iff_verified (hkept : Kept AnyView S log) (hfree : CollisionFree S) :
    (∃ h ∈ log.heads, Ancestor S x h) ↔ x ∈ log.verified := by
  constructor
  · rintro ⟨h, hh, hx⟩
    exact List.mem_toFinset.mp (hx.mem (hkept.closed hfree)
      (List.mem_toFinset.mpr (hkept.heads h hh)))
  · exact hkept.below x

/-- A poll finds every op of the log but those behind its cursor, each of them once, newest
first. -/
theorem foundSince_spec (hreached : LogReached S log) (hfree : CollisionFree S)
    {cursor : Option ObjectId} (hcursor : ∀ c ∈ cursor, c ∈ log.verified) :
    ∃ ops, (foundSince log cursor).value S = .ok ops ∧ (foundSince log cursor).after S = S ∧
      (ops.map Prod.snd).Nodup ∧
      (∀ x, x ∈ ops.map Prod.snd ↔ x ∈ log.verified ∧ ∀ c ∈ cursor, ¬ Ancestor S x c) ∧
      ops.Pairwise (fun a b => b.1 ≤ a.1) ∧
      ∀ e ∈ ops, ∃ op, (getOp e.2).value S = .ok op ∧ e.1 = op.time := by
  have hkept := hreached.keeps hfree
  have hdom := hkept.closed hfree
  obtain ⟨stop, hstop, hread, hpending, hmem⟩ : ∃ stop, (stopAt cursor).value S = .ok stop ∧
      (stopAt cursor).after S = S ∧ Pending (parentsIn S) stop log.heads ∧
      ∀ x, x ∈ stop ↔ ∃ c ∈ cursor, Ancestor S x c := by
    cases cursor with
    | none => exact ⟨[], rfl, after_pure _ S, fun _ hy => (nomatch hy), by simp⟩
    | some c =>
        obtain ⟨stop, hstop⟩ := ancestors_ok hdom (List.mem_toFinset.mpr (hcursor c rfl))
        refine ⟨stop, hstop, readOnly_ancestors c S, pending_stop hstop, fun x => ?_⟩
        rw [mem_ancestors hstop]
        simp
  obtain ⟨ids, hids⟩ := walkSince_ok hdom
    (fun h hh => List.mem_toFinset.mpr (hkept.heads h hh)) stop
  have hwalk : (walkSince log stop).after S = S := List.append_nil S
  obtain ⟨hnodup, hfound⟩ := walkSince_spec hpending hids
  have hops : ∀ x ∈ ids, ∃ op, (getOp x).value S = .ok op := by
    intro x hx
    obtain ⟨op, v, c, hrecorded, -⟩ :=
      hkept.recorded x ((reach_iff_verified hkept hfree).mp ((hfound x).mp hx).2)
    exact ⟨op, hrecorded.get_op hfree⟩
  obtain ⟨ops, htimed, hafter, hsnd, htimes⟩ := timed_ok hops
  have hperm := List.mergeSort_perm ops fun a b => decide (b.1 ≤ a.1)
  have hvalue : (foundSince log cursor).value S =
      .ok (ops.mergeSort fun a b => decide (b.1 ≤ a.1)) ∧
      (foundSince log cursor).after S = S := by
    unfold foundSince
    obtain ⟨h₁, h₁'⟩ := bind_of_ok (f := fun stop => do
      let ids ← walkSince log stop
      let ops ← timed ids
      return ops.mergeSort fun a b => decide (b.1 ≤ a.1)) hstop
    rw [hread] at h₁ h₁'
    obtain ⟨h₂, h₂'⟩ := bind_of_ok (f := fun ids => do
      let ops ← timed ids
      return ops.mergeSort fun a b => decide (b.1 ≤ a.1)) hids
    rw [hwalk] at h₂ h₂'
    obtain ⟨h₃, h₃'⟩ := bind_of_ok (f := fun ops => (pure (ops.mergeSort fun a b =>
      decide (b.1 ≤ a.1)) : StoreM (List (ℤ × ObjectId)))) htimed
    rw [hafter] at h₃ h₃'
    exact ⟨h₁.trans (h₂.trans h₃), h₁'.trans (h₂'.trans (h₃'.trans (after_pure _ S)))⟩
  refine ⟨_, hvalue.1, hvalue.2, ?_, fun x => ?_, ?_, fun e he => htimes e (hperm.mem_iff.mp he)⟩
  · rw [(hperm.map Prod.snd).nodup_iff, hsnd]
    exact hnodup
  · rw [(hperm.map Prod.snd).mem_iff, hsnd, hfound, hmem, reach_iff_verified hkept hfree,
      and_comm]
    simp
  · exact List.pairwise_mergeSort' (Order.Preimage Prod.fst (· ≥ ·)) ops

theorem opsSince_spec (hreached : LogReached S log) (hfree : CollisionFree S)
    {cursor : Option ObjectId} (hcursor : ∀ c ∈ cursor, c ∈ log.verified)
    {ops : List (ℤ × ObjectId)} (hops : (foundSince log cursor).value S = .ok ops)
    (cost : ObjectId → ℕ) (chars : ℕ) :
    (opsSince cost log cursor chars).value S = .ok ⟨shownWithin cost chars ops,
      ops.length - (shownWithin cost chars ops).length, (ops.map Prod.snd).head?⟩ := by
  obtain ⟨-, -, hread, -⟩ := foundSince_spec hreached hfree hcursor
  obtain ⟨hvalue, -⟩ := bind_of_ok (f := fun ops => (pure ⟨shownWithin cost chars ops,
    ops.length - (shownWithin cost chars ops).length, ops.head?.map Prod.snd⟩ : StoreM Since)) hops
  rw [hread] at hvalue
  rw [List.head?_map]
  exact hvalue

end Walk

section Polls

variable [Crypto]

/-- A poll, with the store and the log it was made on. -/
structure Poll where
  store : Store
  log : OpLog
  cursor : Option ObjectId

/-- The ops that a poll finds, listed or counted. -/
def Poll.found (p : Poll) : List ObjectId :=
  match (foundSince p.log p.cursor).value p.store with
  | .ok ops => ops.map Prod.snd
  | .error _ => []

/-- The cursor that a poll gives. -/
def Poll.newest (p : Poll) : Option ObjectId := p.found.head?

/-- The log that a poll saw had one head, and all other ops have earlier times. -/
def Poll.Settled (p : Poll) : Prop :=
  ∃ h head, p.log.heads = [h] ∧ (getOp h).value p.store = .ok head ∧
    ∀ x ∈ p.log.verified, x ≠ h → ∀ op, (getOp x).value p.store = .ok op → op.time < head.time

/-- The runs of a log with the polls of a client, which passes the cursor of one of its earlier
polls, or none. -/
inductive PollRun : List Poll → Store → OpLog → Prop
  | new : PollRun [] [] .new
  | put {past : List Poll} {S : Store} {log : OpLog} (o : Object) :
      PollRun past S log → PollRun past (S ++ [o]) log
  | note {past : List Poll} {S : Store} {log : OpLog} (records : List (String × Bytes)) :
      PollRun past S log → PollRun past S { log with records }
  | deliver {past : List Poll} {S : Store} {log : OpLog} (op : Op) :
      PollRun past S log → PollRun past ((log.accept op).after S) (log.deliver op S)
  | poll {past : List Poll} {S : Store} {log : OpLog} (cursor : Option ObjectId) :
      PollRun past S log → (∀ c ∈ cursor, ∃ q ∈ past, q.newest = some c) →
      PollRun (past ++ [⟨S, log, cursor⟩]) S log

variable {past earlier : List Poll} {S S' : Store} {log log' : OpLog} {p q : Poll}

/-- What a poll saw is still there. -/
def Poll.Before (p : Poll) (S : Store) (log : OpLog) : Prop :=
  p.store ⊆ S ∧ ∀ x ∈ p.log.verified, x ∈ log.verified

omit [Crypto] in
theorem Poll.Before.mono (h : p.Before S log) (hsub : S ⊆ S')
    (hverified : ∀ x ∈ log.verified, x ∈ log'.verified) : p.Before S' log' :=
  ⟨List.Subset.trans h.1 hsub, fun x hx => hverified x (h.2 x hx)⟩

theorem PollRun.reached (h : PollRun past S log) : LogReached S log := by
  induction h with
  | new => exact .new
  | put o _ ih => exact ih.put o
  | note records _ ih => exact ih.note records
  | @deliver past S log op _ ih =>
      cases hvalue : (log.accept op).value S with
      | ok r => exact deliver_of_ok hvalue ▸ ih.accept op hvalue
      | error e =>
          rw [deliver_of_error hvalue]
          exact ih.putAll
  | poll _ _ _ ih => exact ih

theorem found_spec (hreached : LogReached p.store p.log) (hfree : CollisionFree p.store)
    (hcursor : ∀ c ∈ p.cursor, c ∈ p.log.verified) :
    p.found.Nodup ∧ ∀ x, x ∈ p.found ↔
      x ∈ p.log.verified ∧ ∀ c ∈ p.cursor, ¬ Ancestor p.store x c := by
  obtain ⟨ops, hops, -, hnodup, hmem, -⟩ := foundSince_spec hreached hfree hcursor
  rw [Poll.found, hops]
  exact ⟨hnodup, hmem⟩

/-- What a poll of a settled log gives as the cursor is its head. -/
theorem Poll.Settled.newest (h : p.Settled) (hreached : LogReached p.store p.log)
    (hfree : CollisionFree p.store) (hcursor : ∀ c ∈ p.cursor, c ∈ p.log.verified)
    {c : ObjectId} (hnewest : p.newest = some c) : p.log.heads = [c] := by
  obtain ⟨top, head, hheads, hhead, hlast⟩ := h
  obtain ⟨ops, hops, -, -, hmem, hsorted, htimes⟩ := foundSince_spec hreached hfree hcursor
  have hkept := hreached.keeps hfree
  rw [Poll.newest, Poll.found, hops] at hnewest
  cases ops with
  | nil => cases hnewest
  | cons e rest =>
      obtain rfl := Option.some.inj hnewest
      have he := (hmem e.2).mp List.mem_cons_self
      obtain ⟨op, hop, hetime⟩ := htimes e List.mem_cons_self
      -- The head is among what is found, or nothing would be.
      have htop : top ∈ (e :: rest).map Prod.snd := by
        refine (hmem top).mpr ⟨hkept.heads top (hheads ▸ List.mem_singleton_self top),
          fun c hc hanc => he.2 c hc ?_⟩
        obtain ⟨y, hy, hbelow⟩ := hkept.below e.2 he.1
        rw [hheads] at hy
        obtain rfl := List.mem_singleton.mp hy
        exact hbelow.trans hanc
      rw [hheads]
      by_contra hne
      obtain ⟨f, hf, rfl⟩ := List.mem_map.mp htop
      have hef : f ≠ e := fun heq => hne (by rw [heq])
      have hle := List.rel_of_pairwise_cons hsorted ((List.mem_cons.mp hf).resolve_left hef)
      obtain ⟨op', hop', hftime⟩ := htimes f hf
      rw [hhead] at hop'
      obtain rfl := Except.ok.inj hop'
      have hlt := hlast e.2 he.1 (fun heq => hne (by rw [heq])) op hop
      omega

/-- What a poll saw is still there, and its cursor was an op of its log. -/
theorem PollRun.made (h : PollRun past S log) (hfree : CollisionFree S) : ∀ q ∈ past,
    q.Before S log ∧ LogReached q.store q.log ∧ ∀ c ∈ q.cursor, c ∈ q.log.verified := by
  induction h with
  | new => exact fun q hq => nomatch hq
  | put o _ ih =>
      intro q hq
      obtain ⟨hbefore, hmade⟩ := ih (hfree.mono (List.subset_append_left _ _)) q hq
      exact ⟨hbefore.mono (List.subset_append_left _ _) fun _ hx => hx, hmade⟩
  | note records _ ih => exact ih hfree
  | @deliver past S log op _ ih =>
      intro q hq
      obtain ⟨hbefore, hmade⟩ := ih (hfree.mono (subset_after _ S)) q hq
      exact ⟨hbefore.mono (subset_after _ S) fun x hx => deliver_subset hx op S, hmade⟩
  | @poll past S log cursor hrun hcursor ih =>
      intro q hq
      rcases List.mem_append.mp hq with hq | hq
      · exact ih hfree q hq
      · obtain rfl := List.mem_singleton.mp hq
        refine ⟨⟨List.Subset.refl _, fun _ hx => hx⟩, hrun.reached, fun c hc => ?_⟩
        obtain ⟨q, hq, hnewest⟩ := hcursor c hc
        obtain ⟨hbefore, hreached, hverified⟩ := ih hfree q hq
        exact hbefore.2 c ((found_spec hreached (hfree.mono hbefore.1) hverified).2 c
          |>.mp (List.mem_of_mem_head? hnewest)).1

/-- Behind a cursor is nothing but what the poll that gave it saw. -/
theorem Poll.Before.behind (h : q.Before S log) (hreached : LogReached q.store q.log)
    (hfree : CollisionFree S) {c x : ObjectId} (hc : c ∈ q.log.verified)
    (hx : Ancestor S x c) : x ∈ q.log.verified := by
  have hdom := ((hreached.keeps (hfree.mono h.1)).closed (hfree.mono h.1)).mono h.1 hfree
  exact List.mem_toFinset.mp (hx.mem hdom (List.mem_toFinset.mpr hc))

/-- No op is lost: what a poll does not find, one of the polls before it has found. -/
theorem PollRun.covers (h : PollRun past S log) (hfree : CollisionFree S) :
    ∀ earlier p, earlier ++ [p] <+: past → ∀ x ∈ p.log.verified, ∃ q ∈ earlier ++ [p],
      x ∈ q.found := by
  induction h with
  | new =>
      intro earlier p hprefix
      exact absurd (List.prefix_nil.mp hprefix) (List.append_ne_nil_of_right_ne_nil _
        (List.cons_ne_nil _ _))
  | put o _ ih => exact ih (hfree.mono (List.subset_append_left _ _))
  | note records _ ih => exact ih hfree
  | @deliver past S log op _ ih => exact ih (hfree.mono (subset_after _ S))
  | @poll past S log cursor hrun hcursor ih =>
      intro earlier p hprefix x hx
      rcases List.prefix_concat_iff.mp hprefix with heq | hprefix
      · obtain ⟨rfl, hlast⟩ := List.append_inj' heq rfl
        obtain rfl := List.cons.inj hlast |>.1
        obtain ⟨-, hreached, hverified⟩ := (hrun.poll cursor hcursor).made hfree _
          (List.mem_append_right _ (List.mem_singleton_self _))
        have hfound := (found_spec hreached hfree hverified).2 x
        by_cases hbehind : ∀ c ∈ cursor, ¬ Ancestor S x c
        · exact ⟨_, List.mem_append_right _ (List.mem_singleton_self _),
            hfound.mpr ⟨hx, hbehind⟩⟩
        · -- It is behind the cursor, so the poll that gave the cursor saw it.
          push Not at hbehind
          obtain ⟨c, hc, hxc⟩ := hbehind
          obtain ⟨q, hq, hnewest⟩ := hcursor c hc
          obtain ⟨hbefore, hreachedq, hverifiedq⟩ := hrun.made hfree q hq
          have hcq := ((found_spec hreachedq (hfree.mono hbefore.1) hverifiedq).2 c).mp
            (List.mem_of_mem_head? hnewest)
          have hxq := hbefore.behind hreachedq hfree hcq.1 hxc
          obtain ⟨before, after, rfl⟩ := List.append_of_mem hq
          rw [List.append_cons before q after] at ih ⊢
          obtain ⟨q', hq', hxq'⟩ := ih hfree before q (List.prefix_append _ after) x hxq
          exact ⟨q', List.mem_append_left _ (List.mem_append_left _ hq'), hxq'⟩
      · exact ih hfree earlier p hprefix x hx

theorem PollRun.prefix_run (h : PollRun past S log) : ∀ earlier p, earlier ++ [p] <+: past →
    PollRun (earlier ++ [p]) p.store p.log ∧ p.Before S log := by
  induction h with
  | new =>
      intro earlier p hprefix
      exact absurd (List.prefix_nil.mp hprefix) (List.append_ne_nil_of_right_ne_nil _
        (List.cons_ne_nil _ _))
  | put o _ ih =>
      intro earlier p hprefix
      obtain ⟨hrun, hbefore⟩ := ih earlier p hprefix
      exact ⟨hrun, hbefore.mono (List.subset_append_left _ _) fun _ hx => hx⟩
  | note records _ ih => exact ih
  | @deliver past S log op _ ih =>
      intro earlier p hprefix
      obtain ⟨hrun, hbefore⟩ := ih earlier p hprefix
      exact ⟨hrun, hbefore.mono (subset_after _ S) fun x hx => deliver_subset hx op S⟩
  | @poll past S log cursor hrun hcursor ih =>
      intro earlier p hprefix
      rcases List.prefix_concat_iff.mp hprefix with heq | hprefix
      · obtain ⟨rfl, hlast⟩ := List.append_inj' heq rfl
        obtain rfl := List.cons.inj hlast |>.1
        exact ⟨hrun.poll cursor hcursor, List.Subset.refl _, fun _ hx => hx⟩
      · exact ih earlier p hprefix

/-- After a poll of a settled log, the next one finds just what was accepted in between. -/
theorem PollRun.fresh (h : PollRun (earlier ++ [p]) S log) (hfree : CollisionFree S)
    (hq : q ∈ earlier) (hsettled : q.Settled) {c : ObjectId} (hcursor : p.cursor = some c)
    (hnewest : q.newest = some c) (hstore : p.store = S) (hlog : p.log = log) (x : ObjectId) :
    x ∈ p.found ↔ x ∈ p.log.verified ∧ x ∉ q.log.verified := by
  subst hstore hlog
  obtain ⟨-, hreached, hverified⟩ := h.made hfree p
    (List.mem_append_right _ (List.mem_singleton_self p))
  obtain ⟨hbefore, hreachedq, hverifiedq⟩ := h.made hfree q (List.mem_append_left _ hq)
  have hfreeq := hfree.mono hbefore.1
  have hhead := hsettled.newest hreachedq hfreeq hverifiedq hnewest
  have hkept := hreachedq.keeps hfreeq
  have hc : c ∈ q.log.verified := hkept.heads c (hhead ▸ List.mem_singleton_self c)
  have hbehind : Ancestor p.store x c ↔ x ∈ q.log.verified := by
    refine ⟨hbefore.behind hreachedq hfree hc, fun hx => ?_⟩
    obtain ⟨y, hy, hbelow⟩ := hkept.below x hx
    rw [hhead] at hy
    obtain rfl := List.mem_singleton.mp hy
    exact hbelow.mono hbefore.1 hfree
  rw [(found_spec hreached hfree hverified).2 x, hcursor]
  simp [hbehind]

end Polls

section Samples

/-! A grant between two polls. -/

def grantOp : Op := { activateOp with time := 1 }

def pollTable : List Object := [
  .trie .empty,
  .principal ownerPrincipal,
  .trie ⟨1#16, [.leaf (EntityId.splat 1).bytes (.id (.splat 1))]⟩,
  .view initView,
  .op initOp,
  .capability sampleCapability,
  .trie ⟨1#16, [.leaf (ObjectId.splat 5).bytes .set]⟩,
  .view { initView with caps := .splat 6 },
  .op grantOp]

local instance pollHash : Crypto := .ofTable pollTable

def pollBase : Store := [.principal ownerPrincipal, .capability sampleCapability]

def beforeStore : Store := (OpLog.new.accept initOp).after pollBase

def beforeLog : OpLog := OpLog.new.deliver initOp pollBase

def firstPoll : Poll := ⟨beforeStore, beforeLog, none⟩

def grantedStore : Store := (beforeLog.accept grantOp).after beforeStore

def grantedLog : OpLog := beforeLog.deliver grantOp beforeStore

def secondPoll : Poll := ⟨grantedStore, grantedLog, some (.splat 4)⟩

theorem firstPoll_newest : firstPoll.newest = some (.splat 4) := by decide +kernel

theorem firstPoll_run : PollRun [firstPoll] beforeStore beforeLog := by
  have hput : PollRun [] pollBase .new :=
    (PollRun.new.put (.principal ownerPrincipal)).put (.capability sampleCapability)
  have hinit : PollRun [] beforeStore beforeLog := hput.deliver initOp
  exact hinit.poll none fun c hc => nomatch hc

theorem polls_run : PollRun ([firstPoll] ++ [secondPoll]) grantedStore grantedLog := by
  have hgrant : PollRun [firstPoll] grantedStore grantedLog := firstPoll_run.deliver grantOp
  exact hgrant.poll (some (.splat 4)) fun c hc =>
    ⟨firstPoll, List.mem_singleton_self _, Option.some.inj hc ▸ firstPoll_newest⟩

theorem firstPoll_settled : firstPoll.Settled := by
  refine ⟨.splat 4, initOp, by decide, by decide, fun x hx hne => ?_⟩
  have hverified : firstPoll.log.verified = [.splat 4] := by decide
  rw [hverified] at hx
  exact absurd (List.mem_singleton.mp hx) hne

end Samples

end Tessra.Daemon
