import Tessra.Oplog.Reads

namespace Tessra.Oplog

open Tessra.Core Tessra.Data StoreM OpLog Verify

/-! The capabilities from the one an op cites to the owner's. -/

variable [Crypto] {F S S' : Store} {view : View} {c : Contents} {id pid : ObjectId}
  {cap parent : Capability}

structure Issued (F : Store) (c : Contents) (id : ObjectId) (cap : Capability) : Prop where
  stored : (get Capability id).value F = .ok cap
  issuer : ∃ version p key, PointsAt F c cap.issuer version p ∧ p.status = "active" ∧
    p.key = some key ∧ verifyWith cap key = .ok ()
  unrevoked : c.revoked cap.issuer.bytes = none

/-- A chain of capabilities that a view admits: an owner issued the last. -/
inductive Delegated (F : Store) (view : View) (c : Contents) : ObjectId → Capability → Prop
  | root {id : ObjectId} {cap : Capability} : Issued F c id cap → cap.parent = none →
      cap.issuer ∈ view.owners → Delegated F view c id cap
  | child {id pid : ObjectId} {cap parent : Capability} : Issued F c id cap →
      cap.parent = some pid → (c.at (.cap pid)).isSome → parent.subject = cap.issuer →
      parent.delegable = true → containedIn cap parent = true →
      Delegated F view c pid parent → Delegated F view c id cap

theorem ran_checkChainFrom (hview : Sound S view c) (hfree : CollisionFree F) {guard : ℕ}
    (hstored : (get Capability id).value F = .ok cap)
    (h : (checkChainFrom view guard cap id).Ran S F ()) : Delegated F view c id cap := by
  induction guard generalizing cap id with
  | zero => exact (Ran.not_throw h).elim
  | succ guard ih =>
      obtain ⟨found, hfound, h⟩ := Ran.bind h
      obtain ⟨⟨version, p⟩, hp, h⟩ := h.bind
      obtain ⟨revoked, hrevoked, h⟩ := h.bind
      obtain ⟨_, hactive, h⟩ := h.bind
      obtain ⟨key, hkey, h⟩ := h.bind
      obtain ⟨_, hsigned, h⟩ := h.bind
      rw [ran_orThrow hp] at hfound
      have hactive := ran_require hactive
      rw [ran_principalRevoked hview hfree hrevoked] at hactive
      simp only [Bool.and_eq_true, decide_eq_true_eq, Bool.not_eq_true', Option.isSome_eq_false_iff,
        Option.isNone_iff_eq_none] at hactive
      have hissued : Issued F c id cap := ⟨hstored, ⟨version, p, key,
        ran_resolvePrincipal hview hfree hfound, hactive.1, ran_orThrow hkey,
        ran_requireSigned hsigned⟩, hactive.2⟩
      cases hparent : cap.parent with
      | none =>
          simp only [hparent] at h
          exact .root hissued hparent (of_decide_eq_true (ran_require h))
      | some pid =>
          simp only [hparent] at h
          obtain ⟨live, hlive, h⟩ := h.bind
          obtain ⟨_, hin, h⟩ := h.bind
          obtain ⟨parent, hget, h⟩ := h.bind
          obtain ⟨_, hsubject, h⟩ := h.bind
          obtain ⟨_, hdelegable, h⟩ := h.bind
          obtain ⟨_, hwithin, h⟩ := h.bind
          have hin := ran_require hin
          rw [ran_inCaps hview hfree hlive] at hin
          exact .child hissued hparent hin (of_decide_eq_true (ran_require hsubject))
            (ran_require hdelegable) (ran_require hwithin) (ih (hget.value_get hfree) h)

theorem Delegated.issued (h : Delegated F view c id cap) : Issued F c id cap := by
  cases h <;> assumption

/-- The capability `id` was delegated from `pid`. -/
def ParentCap (S : Store) (id pid : ObjectId) : Prop :=
  ∃ cap, (get Capability id).value S = .ok cap ∧ cap.parent = some pid

/-- A capability at or above another one. -/
def OnChain (S : Store) (leaf id : ObjectId) (cap : Capability) : Prop :=
  Relation.ReflTransGen (ParentCap S) leaf id ∧ (get Capability id).value S = .ok cap

theorem ParentCap.mono (h : ParentCap S id pid) (hsub : S ⊆ S') (hfree : CollisionFree S') :
    ParentCap S' id pid := by
  obtain ⟨cap, hcap, hparent⟩ := h
  exact ⟨cap, (lasting_get Capability id).lasts hsub hfree hcap, hparent⟩

theorem OnChain.mono {leaf : ObjectId} (h : OnChain S leaf id cap) (hsub : S ⊆ S')
    (hfree : CollisionFree S') : OnChain S' leaf id cap :=
  ⟨h.1.lift (fun x => x) fun _ _ hstep => ParentCap.mono hstep hsub hfree,
    (lasting_get Capability id).lasts hsub hfree h.2⟩

theorem Delegated.onChain {leaf : ObjectId} {leafCap : Capability}
    (h : Delegated F view c leaf leafCap) (hon : OnChain F leaf id cap) :
    Delegated F view c id cap := by
  obtain ⟨hpath, hcap⟩ := hon
  have hall : ∃ cap, Delegated F view c id cap := by
    clear hcap
    induction hpath with
    | refl => exact ⟨leafCap, h⟩
    | tail _ hstep ih =>
        obtain ⟨child, hchild, hparent⟩ := hstep
        obtain ⟨child', hdelegated⟩ := ih
        have hsame := hchild.symm.trans hdelegated.issued.stored
        cases hsame
        cases hdelegated with
        | root _ hnone => rw [hnone] at hparent; cases hparent
        | child _ hsome _ _ _ _ habove =>
            rw [hsome] at hparent
            cases hparent
            exact ⟨_, habove⟩
  obtain ⟨cap', hdelegated⟩ := hall
  have hsame := hcap.symm.trans hdelegated.issued.stored
  cases hsame
  exact hdelegated

theorem Delegated.parent_active (h : Delegated F view c id cap) (hparent : cap.parent = some pid) :
    (c.at (.cap pid)).isSome := by
  cases h with
  | root _ hnone => rw [hnone] at hparent; cases hparent
  | child _ hsome hactive =>
      rw [hsome] at hparent
      cases hparent
      exact hactive

theorem Vetted.delegated {middle : Store} {log : OpLog} {op : Op} {v v' : View}
    {cv cc : Contents} {current : View} (h : Vetted S F middle log op v current v' cv cc)
    (hfree : CollisionFree F) (hauthor : op.author ∉ v.owners) :
    ∃ capId cap, Authorized middle F v current op capId cap ∧ Delegated F v cv capId cap := by
  obtain ⟨capId, cap, hauthorized⟩ := h.checked.authorized hauthor
  exact ⟨capId, cap, hauthorized, ran_checkChainFrom h.sound hfree
    (hauthorized.stored.value_get hfree) hauthorized.chain⟩

end Tessra.Oplog
