import Tessra.Oplog.Administration

namespace Tessra.Oplog

open Tessra.Core Tessra.Data StoreM OpLog Verify

/-! What an op may change whose capability grants no verbs. -/

/-- Only an owner, or a holder of a verb, may have these effects. -/
def reserved : Effect → Bool
  | .owner _ | .unowner _ | .coordinator _ _ | .root _ | .unroot _ | .revoke _ | .tomb _ _ => true
  | _ => false

/-- The number that an effect gives a line, if it does. -/
def seqWritten (line : String) : Effect → Option ℕ
  | .head name _ _ seq _ _ => if name = line then some seq else none
  | _ => none

def deployStep (deployed : OrdMap EntityId ObjectId) : Effect → OrdMap EntityId ObjectId
  | .deploy target to_ => deployed.insert target to_
  | _ => deployed

def pauseStep (owners : List EntityId) (parentOp : Option ObjectId)
    (paused : Option (List PauseState)) : Effect → Option (List PauseState)
  | .pause scope => pauseScope owners parentOp scope paused
  | .resume scope => resumeScope scope paused
  | _ => paused

/-- The parts of a view that no unreserved effect changes. -/
structure SameRule (v v' : View) : Prop where
  roots : v'.roots = v.roots
  owners : v'.owners = v.owners
  revoked : v'.revoked = v.revoked
  tombstoned : v'.tombstoned = v.tombstoned

theorem SameRule.refl (v : View) : SameRule v v := ⟨rfl, rfl, rfl, rfl⟩

theorem SameRule.trans {v v' v'' : View} (h : SameRule v v') (h' : SameRule v' v'') :
    SameRule v v'' where
  roots := h'.roots.trans h.roots
  owners := h'.owners.trans h.owners
  revoked := h'.revoked.trans h.revoked
  tombstoned := h'.tombstoned.trans h.tombstoned

section Effects

variable [Crypto] {S S' : Store} {v v' : View} {e : Effect} {effects : List Effect}
  {parentOp : Option ObjectId}

/-- What an unreserved effect does to the parts of a view that are no tries. -/
structure Unreserved (parentOp : Option ObjectId) (v : View) (e : Effect) (v' : View) : Prop where
  rule : SameRule v v'
  deployed : v'.deployed = deployStep v.deployed e
  paused : v'.paused = pauseStep v.owners parentOp v.paused e
  lines : ∀ line, (seqWritten line e = none ∧ v'.lines.get? line = v.lines.get? line) ∨
    ∃ ls, v'.lines.get? line = some ls ∧ seqWritten line e = some ls.seq

theorem ran_applyEffect (he : reserved e = false)
    (h : (ViewState.applyEffect parentOp v e).Ran S S' v') : Unreserved parentOp v e v' := by
  have hset : ∀ (name : String) (to_ : ObjectId) source seq attests id (ls : LineState),
      ls.seq = seq → Unreserved parentOp v (.head name to_ source seq attests id)
        { v with lines := v.lines.insert name ls } := by
    intro name to_ source seq attests id ls hseq
    refine ⟨⟨rfl, rfl, rfl, rfl⟩, rfl, rfl, fun line => ?_⟩
    rw [OrdMap.get?_insert, seqWritten]
    split_ifs with hname
    · exact .inr ⟨ls, rfl, congrArg some hseq.symm⟩
    · exact .inl ⟨rfl, rfl⟩
  cases e with
  | owner | unowner | coordinator | root | unroot | revoke | tomb => cases he
  | head name to_ source seq attests id =>
      simp only [ViewState.applyEffect] at h
      split at h
      · cases Ran.eq_of_pure h
        exact hset name to_ source seq attests id _ rfl
      · split at h
        · exact (Ran.not_throw h).elim
        · cases Ran.eq_of_pure h
          exact hset name to_ source seq attests _ _ rfl
  | point | unpoint | propose | unpropose | claim | unclaim | cap | uncap =>
      obtain ⟨root, _, h⟩ := h.bind
      cases Ran.eq_of_pure h
      exact ⟨⟨rfl, rfl, rfl, rfl⟩, rfl, rfl, fun _ => .inl ⟨rfl, rfl⟩⟩
  | put | deploy | pause | resume =>
      cases Ran.eq_of_pure h
      exact ⟨⟨rfl, rfl, rfl, rfl⟩, rfl, rfl, fun _ => .inl ⟨rfl, rfl⟩⟩

theorem ran_apply (he : ∀ e ∈ effects, reserved e = false)
    (h : (ViewState.apply v effects parentOp).Ran S S' v') :
    SameRule v v' ∧ v'.deployed = effects.foldl deployStep v.deployed ∧
      v'.paused = effects.foldl (pauseStep v.owners parentOp) v.paused := by
  have hdeployed : SameRule v v' ∧ v'.deployed = effects.foldl deployStep v.deployed :=
    Ran.foldlM (I := SameRule v) h (.refl v) fun e hmem v₁ v₂ hrule hstep =>
      have hstep := ran_applyEffect (he e hmem) hstep
      ⟨hrule.trans hstep.rule, hstep.deployed⟩
  have hpaused : SameRule v v' ∧
      v'.paused = effects.foldl (pauseStep v.owners parentOp) v.paused :=
    Ran.foldlM (I := SameRule v) h (.refl v) fun e hmem v₁ v₂ hrule hstep =>
      have hstep := ran_applyEffect (he e hmem) hstep
      ⟨hrule.trans hstep.rule, hrule.owners ▸ hstep.paused⟩
  exact ⟨hdeployed.1, hdeployed.2, hpaused.2⟩

theorem ran_apply_line (he : ∀ e ∈ effects, reserved e = false)
    (h : (ViewState.apply v effects parentOp).Ran S S' v') (line : String) :
    ((∀ e ∈ effects, seqWritten line e = none) ∧ v'.lines.get? line = v.lines.get? line) ∨
      ∃ e ∈ effects, ∃ ls, v'.lines.get? line = some ls ∧ seqWritten line e = some ls.seq := by
  induction effects generalizing v with
  | nil =>
      cases Ran.eq_of_pure h
      exact .inl ⟨by simp, rfl⟩
  | cons e rest ih =>
      rw [ViewState.apply, List.foldlM_cons] at h
      obtain ⟨v₁, hfirst, hrest⟩ := h.bind
      have hstep := ran_applyEffect (he e List.mem_cons_self) hfirst
      rcases ih (fun e' he' => he e' (List.mem_cons_of_mem e he')) hrest with hsame | hhead
      · rw [hsame.2]
        rcases hstep.lines line with hkeeps | ⟨ls, hls, hseq⟩
        · exact .inl ⟨List.forall_mem_cons.mpr ⟨hkeeps.1, hsame.1⟩, hkeeps.2⟩
        · exact .inr ⟨e, List.mem_cons_self, ls, hls, hseq⟩
      · obtain ⟨e', hmem, hls⟩ := hhead
        exact .inr ⟨e', List.mem_cons_of_mem e hmem, hls⟩

end Effects

def deployWritten (target : EntityId) : Effect → Option ObjectId
  | .deploy name to_ => if name = target then some to_ else none
  | _ => none

/-- The revision that the last of the effects deploys to a target. -/
def lastDeploy (target : EntityId) (effects : List Effect) : Option ObjectId :=
  effects.foldl (fun w e => (deployWritten target e).or w) none

theorem get?_deployStep (deployed : OrdMap EntityId ObjectId) (e : Effect) (target : EntityId) :
    (deployStep deployed e).get? target = (deployWritten target e).or (deployed.get? target) := by
  cases e with
  | deploy name to_ =>
      rw [deployStep, OrdMap.get?_insert, deployWritten]
      split_ifs <;> rfl
  | _ => rfl

theorem get?_deploys (deployed : OrdMap EntityId ObjectId) (effects : List Effect)
    (target : EntityId) : (effects.foldl deployStep deployed).get? target =
      (lastDeploy target effects).or (deployed.get? target) := by
  have h : ∀ (effects : List Effect) (d : OrdMap EntityId ObjectId) (w : Option ObjectId),
      d.get? target = w.or (deployed.get? target) → (effects.foldl deployStep d).get? target =
        (effects.foldl (fun w e => (deployWritten target e).or w) w).or (deployed.get? target) := by
    intro effects
    induction effects with
    | nil => exact fun _ _ h => h
    | cons e rest ih =>
        intro d w hw
        refine ih (deployStep d e) _ ?_
        rw [get?_deployStep, hw, Option.or_assoc]
  exact h effects deployed none rfl

theorem lastWrite_claim {id : EntityId} {effects : List Effect} {w : Option TrieValue}
    (h : (Cell.claim id).lastWrite effects = some w) :
    w = none ∨ ∃ to_, w = some (.id to_) ∧ .claim id to_ ∈ effects := by
  obtain ⟨effect, hmem, heffect⟩ := Cell.writtenBy_of_lastWrite h
  cases effect with
  | claim id' to_ =>
      simp only [Cell.writtenBy] at heffect
      split_ifs at heffect with hid
      cases heffect
      exact .inr ⟨to_, rfl, hid ▸ hmem⟩
  | unclaim id' =>
      simp only [Cell.writtenBy] at heffect
      split_ifs at heffect
      cases heffect
      exact .inl rfl
  | _ => cases heffect

section Checks

variable [Crypto] {S S' F : Store} {log : OpLog} {op : Op} {v : View} {cap : Capability}
  {e : Effect} {isOwner : Bool}

theorem unreserved_of_authorized (hverbs : cap.verbs = [])
    (h : (authorizeEffect v cap e).Ran S S' ()) : reserved e = false := by
  cases e with
  | owner | unowner | coordinator | root | unroot => exact (Ran.not_throw h).elim
  | revoke | tomb =>
      have hverb := of_decide_eq_true (ran_require h)
      rw [hverbs] at hverb
      cases hverb
  | _ => rfl

theorem ran_checkHead {records : List (String × Bytes)} {line : String} {to_ : ObjectId}
    {source : Option Value} {seq : ℕ} {attests : List ObjectId} {id : Option EntityId}
    {ls : LineState} (hline : v.lines.get? line = some ls)
    (h : (checkHead records v op isOwner line to_ source seq attests id).Ran S S' ()) :
    ls.coordinator = op.author ∧ lineHead ls = source.bind Pointer.fromValue ∧
      seq = ls.seq + 1 := by
  obtain ⟨toRev, _, h⟩ := h.bind
  simp only [hline] at h
  obtain ⟨_, hcoordinator, h⟩ := Ran.bind h
  obtain ⟨_, hfrom, h⟩ := h.bind
  obtain ⟨_, hseq, _⟩ := h.bind
  exact ⟨of_decide_eq_true (ran_require hcoordinator), of_decide_eq_true (ran_require hfrom),
    of_decide_eq_true (ran_require hseq)⟩

theorem ran_checkHead_new {records : List (String × Bytes)} {line : String} {to_ : ObjectId}
    {source : Option Value} {seq : ℕ} {attests : List ObjectId} {id : Option EntityId}
    (hline : v.lines.get? line = none)
    (h : (checkHead records v op isOwner line to_ source seq attests id).Ran S S' ()) :
    isOwner = true ∧ source = none ∧ seq = 0 := by
  obtain ⟨toRev, _, h⟩ := h.bind
  simp only [hline] at h
  obtain ⟨_, howner, h⟩ := Ran.bind h
  have hnew := ran_require h
  simp only [Bool.and_eq_true, Option.isNone_iff_eq_none, decide_eq_true_eq] at hnew
  exact ⟨ran_require howner, hnew.1.2, hnew.2⟩

/-- A claim of the author's. -/
def ClaimBy (S : Store) (author : EntityId) (i : ObjectId) : Prop :=
  ∃ c, (get Claim i).value S = .ok c ∧ c.principal = author

theorem ran_checkClaim {records : List (String × Bytes)} {landed : List ObjectId}
    {id : EntityId} {to_ : ObjectId} (hfree : CollisionFree S')
    (h : (checkEffect records v landed op isOwner (.claim id to_)).Ran S S' ()) :
    ClaimBy S' op.author to_ := by
  obtain ⟨c, hc, h⟩ := Ran.bind h
  obtain ⟨_, hprincipal, _⟩ := h.bind
  exact ⟨c, hc.value_get hfree, of_decide_eq_true (ran_require hprincipal)⟩

def IsRevision (S : Store) (i : ObjectId) : Prop := ∃ r, (get Revision i).value S = .ok r

def idsOf (p : Option Pointer) : List ObjectId := (p.map Pointer.ids).getD []

/-- The view that an op produced differs from its parents' only in the author's
claims and in revisions. -/
structure InLane (S : Store) (log : OpLog) (op : Op) (v v' : View) : Prop where
  proposed : ∀ rev, ((log.deliver op S).proposedIn [Crypto.objectId (.op op)] rev).value
    ((log.accept op).after S) = (log.proposedIn op.parents rev).value S
  caps : ∀ cap, ((log.deliver op S).capIn [Crypto.objectId (.op op)] cap).value
    ((log.accept op).after S) = (log.capIn op.parents cap).value S
  lines : v'.lines = v.lines
  rule : SameRule v v'
  deployed : v'.deployed = v.deployed
  paused : v'.paused = v.paused
  claims : ∀ id before after, (log.claimIn op.parents id).value S = .ok before →
    ((log.deliver op S).claimIn [Crypto.objectId (.op op)] id).value ((log.accept op).after S) =
      .ok after → after ≠ before → ∀ i ∈ idsOf before ++ idsOf after,
        ClaimBy ((log.accept op).after S) op.author i
  entities : ∀ id before after, (log.entityIn op.parents id).value S = .ok before →
    ((log.deliver op S).entityIn [Crypto.objectId (.op op)] id).value ((log.accept op).after S) =
      .ok after → after ≠ before → ∀ i ∈ idsOf before ++ idsOf after,
        IsRevision ((log.accept op).after S) i

/-- The effects that no check looks at leave what they are about as it is. -/
structure Harmless (S : Store) (log : OpLog) (op : Op) (v : View) : Prop where
  heads : ∀ line, ∀ e ∈ op.effects, seqWritten line e = none
  proposed : ∀ rev w, (Cell.proposed rev).lastWrite op.effects = some w →
    (log.proposedIn op.parents rev).value S = .ok w.isSome
  caps : ∀ cap w, (Cell.cap cap).lastWrite op.effects = some w →
    (log.capIn op.parents cap).value S = .ok w.isSome
  deployed : ∀ target to_, lastDeploy target op.effects = some to_ →
    v.deployed.get? target = some to_
  paused : op.effects.foldl (pauseStep v.owners op.parents.head?) v.paused = v.paused
  claims : ∀ id before w, (log.claimIn op.parents id).value S = .ok before →
    (Cell.claim id).lastWrite op.effects = some w → w.bind Pointer.fromTrie = before ∨
      ∀ i ∈ idsOf before, ClaimBy ((log.accept op).after S) op.author i
  entities : ∀ id before w, (log.entityIn op.parents id).value S = .ok before →
    (Cell.entity id).lastWrite op.effects = some w → w.bind Pointer.fromTrie = before ∨
      ∀ i ∈ idsOf before ++ idsOf (w.bind Pointer.fromTrie),
        IsRevision ((log.accept op).after S) i

end Checks

section Runs

variable [Crypto] {S F middle : Store} {log : OpLog} {op : Op} {v c v' : View}
  {cv cc c' : Contents} {cap : Capability} {capId : ObjectId} {past : List Delivery}

/-- A head effect that passed its checks changes the lines. -/
theorem Vetted.lines_eq_iff (h : Vetted S F middle log op v c v' cv cc)
    (hunreserved : ∀ e ∈ op.effects, reserved e = false) :
    v'.lines = v.lines ↔ ∀ line, ∀ e ∈ op.effects, seqWritten line e = none := by
  have hline := fun line => ran_apply_line hunreserved h.applied line
  constructor
  · intro hsame line e he
    rcases hline line with hkeeps | ⟨e', he', ls, hls, hseq⟩
    · exact hkeeps.1 e he
    · obtain ⟨landed, _, hlegal⟩ := h.checked.legal
      rw [hsame] at hls
      cases e' with
      | head name to_ source seq attests id =>
          simp only [seqWritten] at hseq
          split_ifs at hseq with hname
          cases hseq
          have hnext := (ran_checkHead (hname.symm ▸ hls) (hlegal _ he')).2.2
          omega
      | _ => cases hseq
  · intro hnone
    refine OrdMap.ext fun line => ?_
    rcases hline line with hkeeps | ⟨e', he', ls, hls, hseq⟩
    · exact hkeeps.2
    · rw [hnone line e' he'] at hseq
      cases hseq

omit [Crypto] in
theorem isSome_getD_iff {w : Option (Option TrieValue)} {x : Option TrieValue} :
    (w.getD x).isSome = x.isSome ↔ ∀ y, w = some y → x.isSome = y.isSome := by
  cases w with
  | none => simp
  | some y => simp [eq_comm]

omit [Crypto] in
theorem write_of_ne {w : Option (Option TrieValue)} {x : Option TrieValue}
    (h : (w.getD x).bind Pointer.fromTrie ≠ x.bind Pointer.fromTrie) :
    ∃ y, w = some y ∧ (w.getD x).bind Pointer.fromTrie = y.bind Pointer.fromTrie := by
  cases w with
  | none => exact absurd rfl h
  | some y => exact ⟨y, rfl, rfl⟩

/-- In every run, an op of someone who is not an owner and whose capability
grants no verbs stays in its lane, exactly if its effects that no check looks at
are harmless. -/
theorem inLane_iff (hrun : LogRun past S log) (hfree : CollisionFree ((log.accept op).after S))
    (hnonOwner : NonOwner S log op) (hverified : Delivery.Verified ⟨S, log, op⟩)
    (hcited : op.cap = some capId)
    (hcap : (get Capability capId).value ((log.accept op).after S) = .ok cap)
    (hverbs : cap.verbs = []) :
    ∃ v v', (log.mergedView op.parents).value S = .ok v ∧
      ((log.deliver op S).mergedView [Crypto.objectId (.op op)]).value
        ((log.accept op).after S) = .ok v' ∧ (InLane S log op v v' ↔ Harmless S log op v) := by
  obtain ⟨hparents, owners, howners, hauthor⟩ := hnonOwner
  obtain ⟨middle, v, _, v', cv, _, hvetted⟩ :=
    hrun.reached.verified hparents hverified (List.Subset.refl _) hfree
  rw [hvetted.parents.ownersIn] at howners
  cases howners
  obtain ⟨capId', cap', hauthorized⟩ := hvetted.checked.authorized hauthor
  have hsame := hcited.symm.trans hauthorized.cited
  cases hsame
  have hsame := hcap.symm.trans (hauthorized.stored.value_get hfree)
  cases hsame
  obtain ⟨v₁, c₁, hproduced⟩ := hrun.produced hfree hverified
  have heq := hvetted.produced_eq hproduced (List.Subset.refl _) hfree
  subst heq
  have hbefore := hfree.mono (List.Subset.trans hvetted.before hvetted.after)
  have hunreserved := fun e he => unreserved_of_authorized hverbs (hauthorized.effects e he)
  obtain ⟨hrule, hdeployed, hpaused⟩ := ran_apply hunreserved hvetted.applied
  have hlines := hvetted.lines_eq_iff hunreserved
  have hnow := hproduced.free hfree
  refine ⟨v, v₁, hvetted.parents.value, hproduced.reads.value, ?_⟩
  constructor
  · intro h
    constructor
    · exact hlines.mp h.lines
    · intro rev w hw
      have hsame := h.proposed rev
      rw [hvetted.parents.proposedIn hbefore, hproduced.reads.proposedIn hnow, hproduced.shows,
        Except.ok.injEq] at hsame
      rw [hvetted.parents.proposedIn hbefore, isSome_getD_iff.mp hsame w hw]
    · intro i w hw
      have hsame := h.caps i
      rw [hvetted.parents.capIn hbefore, hproduced.reads.capIn hnow, hproduced.shows,
        Except.ok.injEq] at hsame
      rw [hvetted.parents.capIn hbefore, isSome_getD_iff.mp hsame w hw]
    · intro target to_ hto
      rw [← h.deployed, hdeployed, get?_deploys, hto]
      rfl
    · rw [← hpaused, h.paused]
    · intro id before w hread hw
      by_cases hsame : w.bind Pointer.fromTrie = before
      · exact .inl hsame
      · refine .inr fun i hi => h.claims id before _ hread ?_ hsame i (List.mem_append_left _ hi)
        rw [hproduced.reads.claimIn hnow, hproduced.shows, hw]
        rfl
    · intro id before w hread hw
      by_cases hsame : w.bind Pointer.fromTrie = before
      · exact .inl hsame
      · refine .inr (h.entities id before _ hread ?_ hsame)
        rw [hproduced.reads.entityIn hnow, hproduced.shows, hw]
        rfl
  · intro h
    constructor
    · intro rev
      rw [hvetted.parents.proposedIn hbefore, hproduced.reads.proposedIn hnow, hproduced.shows,
        Except.ok.injEq, isSome_getD_iff]
      intro w hw
      have hsame := h.proposed rev w hw
      rw [hvetted.parents.proposedIn hbefore] at hsame
      exact Except.ok.inj hsame
    · intro i
      rw [hvetted.parents.capIn hbefore, hproduced.reads.capIn hnow, hproduced.shows,
        Except.ok.injEq, isSome_getD_iff]
      intro w hw
      have hsame := h.caps i w hw
      rw [hvetted.parents.capIn hbefore] at hsame
      exact Except.ok.inj hsame
    · exact hlines.mpr h.heads
    · exact hrule
    · refine OrdMap.ext fun target => ?_
      rw [hdeployed, get?_deploys]
      cases hto : lastDeploy target op.effects with
      | none => rfl
      | some to_ => exact (h.deployed target to_ hto).symm
    · rw [hpaused, h.paused]
    · intro id before after hread hreadAfter hne i hi
      have hclaims := h.claims id before
      rw [hvetted.parents.claimIn hbefore, Except.ok.injEq] at hread hclaims
      rw [hproduced.reads.claimIn hnow, hproduced.shows, Except.ok.injEq] at hreadAfter
      subst hread hreadAfter
      obtain ⟨w, hw, hsame⟩ := write_of_ne hne
      rw [hsame] at hne hi
      rcases List.mem_append.mp hi with hi | hi
      · exact (hclaims w rfl hw).resolve_left hne i hi
      · rcases lastWrite_claim hw with rfl | ⟨to_, rfl, hclaim⟩
        · cases hi
        · obtain ⟨landed, _, hlegal⟩ := hvetted.checked.legal
          cases List.mem_singleton.mp hi
          exact ran_checkClaim hfree (hlegal _ hclaim)
    · intro id before after hread hreadAfter hne
      have hentities := h.entities id before
      rw [hvetted.parents.entityIn hbefore, Except.ok.injEq] at hread hentities
      rw [hproduced.reads.entityIn hnow, hproduced.shows, Except.ok.injEq] at hreadAfter
      subst hread hreadAfter
      obtain ⟨w, hw, hsame⟩ := write_of_ne hne
      rw [hsame] at hne ⊢
      exact (hentities w rfl hw).resolve_left hne

end Runs

section Samples

/-! A worker without any verb that retires the planner's capability and pauses. -/

def retirePlanner : Op := workerOp "status" [.uncap (.splat 5), .pause "docs"] (.splat 19)

def retiredView : View :=
  { delegateView with
    caps := .splat 18
    paused := some [⟨"docs", .splat 1, .splat 17⟩] }

local instance retireHash : Crypto := .ofTable (delegateTable ++ [
  .trie ⟨1#16, [.leaf (ObjectId.splat 6).bytes .set]⟩,
  .view retiredView,
  .op retirePlanner])

def beforeRetirement : Store × OpLog := deliverAll delegateBase .new [delegateInit, delegateGrant]

def afterRetirement : Store := (beforeRetirement.2.accept retirePlanner).after beforeRetirement.1

/-- The op is accepted, and takes effect. -/
theorem planner_retired :
    LogRun (deliveries delegateBase .new [delegateInit, delegateGrant]) beforeRetirement.1
      beforeRetirement.2 ∧
    CollisionFree afterRetirement ∧
    NonOwner beforeRetirement.1 beforeRetirement.2 retirePlanner ∧
    Delivery.Verified ⟨beforeRetirement.1, beforeRetirement.2, retirePlanner⟩ ∧
    (get Capability (.splat 6)).value afterRetirement = .ok workerCapability ∧
    workerCapability.verbs = [] ∧
    (beforeRetirement.2.mergedView retirePlanner.parents).value beforeRetirement.1 =
      .ok delegateView ∧
    ((beforeRetirement.2.deliver retirePlanner beforeRetirement.1).mergedView
      [Crypto.objectId (.op retirePlanner)]).value afterRetirement = .ok retiredView ∧
    ¬ InLane beforeRetirement.1 beforeRetirement.2 retirePlanner delegateView retiredView := by
  refine ⟨logRun_deliverAll _ _, collisionFree_ofTable (by decide) (by decide +kernel),
    by decide +kernel, by decide +kernel, by decide +kernel, rfl, by decide +kernel,
    by decide +kernel, fun hlane => ?_⟩
  have hpaused := hlane.paused
  cases hpaused

theorem inLane_iff_retirement :
    ∃ v v', (beforeRetirement.2.mergedView retirePlanner.parents).value beforeRetirement.1 =
      .ok v ∧
      ((beforeRetirement.2.deliver retirePlanner beforeRetirement.1).mergedView
        [Crypto.objectId (.op retirePlanner)]).value afterRetirement = .ok v' ∧
      (InLane beforeRetirement.1 beforeRetirement.2 retirePlanner v v' ↔
        Harmless beforeRetirement.1 beforeRetirement.2 retirePlanner v) :=
  have hcap : (get Capability (.splat 6)).value afterRetirement = .ok workerCapability := by
    decide +kernel
  inLane_iff (logRun_deliverAll delegateBase [delegateInit, delegateGrant])
    (collisionFree_ofTable (by decide) (by decide +kernel)) (by decide +kernel) (by decide +kernel)
    rfl hcap rfl

end Samples

end Tessra.Oplog
