import Tessra.Core.Store

namespace Tessra.Daemon.Principals

open Tessra.Core

/-! The keys directory: agents, humans, external systems, standing grants and sessions, each in
files named after the principal. -/

section Names

/-- A name as files carry it: all but letters, digits, dashes and underscores is rewritten. -/
def safeName (name : String) : String :=
  String.ofList (name.toList.map fun c => if c.isAlphanum || c = '-' || c = '_' then c else '_')

inductive NamedKind
  | human
  | external
deriving DecidableEq

def NamedKind.text : NamedKind → String
  | .human => "human"
  | .external => "external"

def NamedKind.dir : NamedKind → String
  | .human => "humans/"
  | .external => "externals/"

/-- The tag of a session's write scope: six bytes of a hash, as hex. -/
structure ScopeTag where
  text : String
  length_text : text.length = 12

/-- The digests that the source takes from a library. -/
structure Digests where
  credentialHash : String → String
  scopeTag : List String → ScopeTag

def agentStem (name : String) : String := "agents/" ++ safeName name

def namedStem (kind : NamedKind) (name : String) : String := kind.dir ++ safeName name

def grantStem (name : String) : String := "grants/" ++ safeName name

def sessionStem (D : Digests) (name : String) (paths : List String) : String :=
  "sessions/" ++ safeName name ++ "-" ++ (D.scopeTag paths).text

end Names

section State

@[ext]
structure SecretKey where
  bytes : Bytes
  length_bytes : bytes.length = 32

instance : DecidableEq SecretKey := fun key key' =>
  decidable_of_iff (key.bytes = key'.bytes) SecretKey.ext_iff.symm

/-- What the key file and the meta file of a human or an external system hold. -/
structure NamedRecord where
  id : EntityId
  cap : ObjectId
  hash : Option String
  key : SecretKey
deriving DecidableEq

structure SessionRecord where
  id : EntityId
  cap : ObjectId
  expires : ℤ
  key : SecretKey
deriving DecidableEq

structure GrantTemplate where
  verbs : List String
  paths : List String
  delegable : Bool
  ops : Option ℕ
deriving DecidableEq

/-- The keys directory, by the names of the files without what tells a key from its record. -/
structure Keys where
  agents : String → Option (EntityId × SecretKey)
  named : String → Option NamedRecord
  grants : String → Option GrantTemplate
  sessions : String → Option SessionRecord

def Keys.empty : Keys := ⟨fun _ => none, fun _ => none, fun _ => none, fun _ => none⟩

/-- What a creation draws at random, and the capability it puts. -/
structure Drawn where
  id : EntityId
  key : SecretKey
  cap : ObjectId
  credential : String

structure Actor where
  principal : EntityId
  key : SecretKey
  cap : Option ObjectId
  writePaths : List String
  kind : String
  credentialed : Bool

end State

section Operations

variable (D : Digests) (k : Keys)

/-- Find or create the durable agent principal for a runtime name. -/
def ensureAgent (name : String) (d : Drawn) : (EntityId × SecretKey) × Keys :=
  match k.agents (agentStem name) with
  | some found => (found, k)
  | none =>
      ((d.id, d.key), { k with
        agents := Function.update k.agents (agentStem name) (some (d.id, d.key)) })

def grantTemplate (name : String) : Option GrantTemplate := k.grants (grantStem name)

def setGrantTemplate (name : String) (t : GrantTemplate) : Keys :=
  { k with grants := Function.update k.grants (grantStem name) (some t) }

/-- Create a human or an external system, or rotate the credential of the one that exists. -/
def grantNamed (kind : NamedKind) (name : String) (d : Drawn) :
    (EntityId × ObjectId × String) × Keys :=
  let stem := namedStem kind name
  match k.named stem with
  | some r =>
      ((r.id, r.cap, d.credential), { k with
        named := Function.update k.named stem
          (some { r with hash := some (D.credentialHash d.credential) }) })
  | none =>
      ((d.id, d.cap, d.credential), { k with
        named := Function.update k.named stem
          (some ⟨d.id, d.cap, some (D.credentialHash d.credential), d.key⟩) })

/-- Act as an external or human principal, whose credential the caller presents. -/
def openExternal (name : String) (credential : Option String) : Except Error Actor :=
  let kind : NamedKind := if (k.named (namedStem .human name)).isSome then .human else .external
  match k.named (namedStem kind name) with
  | none => .error (.verb "PRINCIPAL" (s!"no principal {name}; the owner grants one with " ++
      s!"`tessra grant --external {name}` or `--human {name}`"))
  | some r =>
      match r.hash, credential with
      | none, _ => .error (.verb "CREDENTIAL_REQUIRED" (s!"{name} has no credential yet; the owner " ++
          s!"issues one with `tessra grant --{kind.text} {name}`, which prints it once"))
      | some _, none => .error (.verb "CREDENTIAL_REQUIRED" (s!"acting as {name} needs their " ++
          "credential: pass --credential, set TESSRA_CREDENTIAL, or answer the prompt"))
      | some h, some p =>
          if D.credentialHash p ≠ h then
            .error (.verb "CREDENTIAL_BAD" (s!"the credential presented for {name} is not theirs; " ++
              s!"the owner reissues one with `tessra grant --{kind.text} {name}`"))
          else .ok ⟨r.id, r.key, some r.cap, [], kind.text, true⟩

/-- What a session is opened at: the clock, who is revoked, and the planner's assignments. -/
structure Moment where
  now : ℤ
  revoked : EntityId → Bool
  assigned : EntityId → List String

/-- The write scope a session for this agent gets: the planner's assignment, else the owner's
grant, else what the caller asked for. -/
def effectiveWritePaths (w : Moment) (agent : EntityId) (name : String) (asked : List String) :
    List String :=
  if w.assigned agent ≠ [] then w.assigned agent
  else
    match grantTemplate k name with
    | some t => if t.paths ≠ [] then t.paths else asked
    | none => asked

/-- Open a session for an agent, or reuse an unexpired one for the same agent and scope. -/
def openSession (name : String) (asked : List String) (w : Moment) (d d' : Drawn) :
    Except Error Actor × Keys :=
  let (agent, k) := ensureAgent k name d
  if w.revoked agent.1 then (.error (.verb "REVOKED" s!"agent {name} is revoked"), k)
  else
    let paths := effectiveWritePaths k w agent.1 name asked
    let stem := sessionStem D name paths
    let opened : Except Error Actor × Keys :=
      (.ok ⟨d'.id, d'.key, some d'.cap, paths, "session", false⟩, { k with
        sessions := Function.update k.sessions stem
          (some ⟨d'.id, d'.cap, w.now + 4 * 3600 * 1000000000, d'.key⟩) })
    match k.sessions stem with
    | some r =>
        if r.expires > w.now ∧ w.revoked r.id = false then
          (.ok ⟨r.id, r.key, some r.cap, paths, "session", false⟩, k)
        else opened
    | none => opened

end Operations

section Runs

inductive Event
  | ensureAgent (name : String) (d : Drawn)
  | grant (kind : NamedKind) (name : String) (d : Drawn)
  | setGrant (name : String) (t : GrantTemplate)
  | openSession (name : String) (asked : List String) (w : Moment) (d d' : Drawn)

def Event.draws : Event → List Drawn
  | .ensureAgent _ d => [d]
  | .grant _ _ d => [d]
  | .setGrant _ _ => []
  | .openSession _ _ _ d d' => [d, d']

/-- A credential as it was shown: for whom. -/
structure Issue where
  kind : NamedKind
  name : String
  credential : String

def Event.issued : Event → List Issue
  | .grant kind name d => [⟨kind, name, d.credential⟩]
  | _ => []

def Keys.step (D : Digests) (k : Keys) : Event → Keys
  | .ensureAgent name d => (Principals.ensureAgent k name d).2
  | .grant kind name d => (grantNamed D k kind name d).2
  | .setGrant name t => setGrantTemplate k name t
  | .openSession name asked w d d' => (Principals.openSession D k name asked w d d').2

/-- What is drawn is held nowhere yet, and no credential issued has the digest of the new one. -/
structure Fresh (D : Digests) (k : Keys) (issued : List Issue) (d : Drawn) : Prop where
  agents : ∀ s r, k.agents s = some r → r.1 ≠ d.id ∧ r.2 ≠ d.key
  named : ∀ s r, k.named s = some r → r.id ≠ d.id ∧ r.key ≠ d.key
  sessions : ∀ s r, k.sessions s = some r → r.id ≠ d.id ∧ r.key ≠ d.key
  credential : ∀ i ∈ issued, D.credentialHash i.credential ≠ D.credentialHash d.credential

/-- The keys directories of a repository over time, and the credentials issued in it. -/
inductive Reached (D : Digests) : Keys → List Issue → Prop
  | start : Reached D Keys.empty []
  | step {k : Keys} {issued : List Issue} (e : Event) (h : Reached D k issued)
      (hfresh : ∀ d ∈ e.draws, Fresh D k issued d) :
      Reached D (k.step D e) (issued ++ e.issued)

/-- Two names are apart: no file of one is the other's, no principal and no key is held for
both, and what is issued for one neither opens the other nor changes it. -/
structure Apart (D : Digests) (k : Keys) (issued : List Issue) (n m : String) : Prop where
  agents : agentStem n ≠ agentStem m ∧ ∀ r r', k.agents (agentStem n) = some r →
    k.agents (agentStem m) = some r' → r.1 ≠ r'.1 ∧ r.2 ≠ r'.2
  named : ∀ kind, namedStem kind n ≠ namedStem kind m ∧ ∀ r r',
    k.named (namedStem kind n) = some r → k.named (namedStem kind m) = some r' →
      r.id ≠ r'.id ∧ r.key ≠ r'.key
  grants : grantStem n ≠ grantStem m
  sessions : ∀ paths paths', sessionStem D n paths ≠ sessionStem D m paths' ∧ ∀ r r',
    k.sessions (sessionStem D n paths) = some r → k.sessions (sessionStem D m paths') = some r' →
      r.id ≠ r'.id ∧ r.key ≠ r'.key
  credentials : ∀ kind credential, ⟨kind, n, credential⟩ ∈ issued →
    ∀ actor, openExternal D k m (some credential) ≠ .ok actor
  rotation : ∀ kind d kind', (grantNamed D k kind n d).2.named (namedStem kind' m) =
    k.named (namedStem kind' m)

end Runs

section Files

variable {n m : String}

theorem agentStem_inj : agentStem n = agentStem m ↔ safeName n = safeName m := by
  rw [agentStem, agentStem, String.append_right_inj]

theorem grantStem_inj : grantStem n = grantStem m ↔ safeName n = safeName m := by
  rw [grantStem, grantStem, String.append_right_inj]

theorem namedStem_inj {kind kind' : NamedKind} :
    namedStem kind n = namedStem kind' m ↔ kind = kind' ∧ safeName n = safeName m := by
  constructor
  · intro h
    have hlist := congrArg String.toList h
    rw [namedStem, namedStem, String.toList_append, String.toList_append] at hlist
    cases kind <;> cases kind'
    · exact ⟨rfl, String.toList_inj.mp (List.append_cancel_left hlist)⟩
    · exact absurd (congrArg List.head? hlist) (show some 'h' ≠ some 'e' by decide)
    · exact absurd (congrArg List.head? hlist) (show some 'e' ≠ some 'h' by decide)
    · exact ⟨rfl, String.toList_inj.mp (List.append_cancel_left hlist)⟩
  · rintro ⟨rfl, hsafe⟩
    rw [namedStem, namedStem, hsafe]

theorem safeName_of_sessionStem {D : Digests} {paths paths' : List String}
    (h : sessionStem D n paths = sessionStem D m paths') : safeName n = safeName m := by
  have hlist := congrArg String.toList h
  simp only [sessionStem, String.toList_append, List.append_assoc] at hlist
  have hrest := List.append_cancel_left hlist
  have hlength : (String.toList "-" ++ (D.scopeTag paths).text.toList).length =
      (String.toList "-" ++ (D.scopeTag paths').text.toList).length := by
    rw [List.length_append, List.length_append, String.length_toList, String.length_toList,
      String.length_toList, (D.scopeTag paths).length_text, (D.scopeTag paths').length_text]
  exact String.toList_inj.mp (List.append_inj_left' hrest hlength)

end Files

section Unshared

variable {ρ β : Type} {f : String → Option ρ} {π : ρ → β}

/-- No two files hold the same. -/
def Unshared (f : String → Option ρ) (π : ρ → β) : Prop :=
  ∀ s s' r r', f s = some r → f s' = some r' → π r = π r' → s = s'

theorem Unshared.update (h : Unshared f π) {s : String} {r : ρ}
    (hnew : ∀ s' r', f s' = some r' → π r' = π r → s' = s) :
    Unshared (Function.update f s (some r)) π := by
  intro s₁ s₂ r₁ r₂ h₁ h₂ heq
  by_cases hs₁ : s₁ = s
  · subst hs₁
    rw [Function.update_self] at h₁
    obtain rfl := Option.some.inj h₁
    by_cases hs₂ : s₂ = s₁
    · exact hs₂.symm
    · rw [Function.update_of_ne hs₂] at h₂
      exact (hnew s₂ r₂ h₂ heq.symm).symm
  · rw [Function.update_of_ne hs₁] at h₁
    by_cases hs₂ : s₂ = s
    · subst hs₂
      rw [Function.update_self] at h₂
      obtain rfl := Option.some.inj h₂
      exact hnew s₁ r₁ h₁ heq
    · rw [Function.update_of_ne hs₂] at h₂
      exact h s₁ s₂ r₁ r₂ h₁ h₂ heq

/-- What nothing holds yet may be put anywhere. -/
theorem Unshared.put (h : Unshared f π) (s : String) {r : ρ}
    (hfresh : ∀ s' r', f s' = some r' → π r' ≠ π r) :
    Unshared (Function.update f s (some r)) π :=
  h.update fun s' r' hr' heq => absurd heq (hfresh s' r' hr')

/-- A file may be written again with what it held. -/
theorem Unshared.rewrite (h : Unshared f π) {s : String} {r r₀ : ρ} (hr₀ : f s = some r₀)
    (hsame : π r = π r₀) : Unshared (Function.update f s (some r)) π :=
  h.update fun s' r' hr' heq => h s' s r' r₀ hr' hr₀ (heq.trans hsame)

end Unshared

section Invariant

variable {D : Digests} {k : Keys} {issued : List Issue} {name : String} {d : Drawn}

/-- Principals and keys are held in one place each, and what a record accepts was issued for a
name that is written as the record's. -/
structure Held (D : Digests) (k : Keys) (issued : List Issue) : Prop where
  agentIds : Unshared k.agents Prod.fst
  agentKeys : Unshared k.agents Prod.snd
  namedIds : Unshared k.named NamedRecord.id
  namedKeys : Unshared k.named NamedRecord.key
  sessionIds : Unshared k.sessions SessionRecord.id
  sessionKeys : Unshared k.sessions SessionRecord.key
  accepts : ∀ s r, k.named s = some r → ∃ i ∈ issued, s = namedStem i.kind i.name ∧
    r.hash = some (D.credentialHash i.credential)
  distinct : (issued.map fun i => D.credentialHash i.credential).Nodup

theorem Held.ensureAgent (h : Held D k issued) (hfresh : Fresh D k issued d) :
    Held D (ensureAgent k name d).2 issued := by
  unfold Principals.ensureAgent
  split
  · exact h
  · exact { h with
      agentIds := h.agentIds.put _ fun s r hr => (hfresh.agents s r hr).1
      agentKeys := h.agentKeys.put _ fun s r hr => (hfresh.agents s r hr).2 }

theorem Held.setGrantTemplate (h : Held D k issued) (t : GrantTemplate) :
    Held D (setGrantTemplate k name t) issued := { h with }

theorem Held.grantNamed (h : Held D k issued) (hfresh : Fresh D k issued d) (kind : NamedKind) :
    Held D (grantNamed D k kind name d).2 (issued ++ [⟨kind, name, d.credential⟩]) := by
  have hdistinct : ((issued ++ [(⟨kind, name, d.credential⟩ : Issue)]).map fun i =>
      D.credentialHash i.credential).Nodup := by
    rw [List.map_append, List.map_singleton, List.nodup_append]
    refine ⟨h.distinct, List.nodup_singleton _, ?_⟩
    intro x hx y hy
    obtain ⟨i, hi, rfl⟩ := List.mem_map.mp hx
    obtain rfl := List.mem_singleton.mp hy
    exact hfresh.credential i hi
  -- The record that is written accepts the new credential, the others what they accepted.
  have haccepts : ∀ {r : NamedRecord}, r.hash = some (D.credentialHash d.credential) →
      ∀ s r', Function.update k.named (namedStem kind name) (some r) s = some r' →
        ∃ i ∈ issued ++ [⟨kind, name, d.credential⟩], s = namedStem i.kind i.name ∧
          r'.hash = some (D.credentialHash i.credential) := by
    intro r hr s r' hr'
    by_cases hs : s = namedStem kind name
    · subst hs
      rw [Function.update_self] at hr'
      obtain rfl := Option.some.inj hr'
      exact ⟨_, List.mem_append_right _ (List.mem_singleton_self _), rfl, hr⟩
    · rw [Function.update_of_ne hs] at hr'
      obtain ⟨i, hi, hstem⟩ := h.accepts s r' hr'
      exact ⟨i, List.mem_append_left _ hi, hstem⟩
  unfold Principals.grantNamed
  dsimp only
  split
  · rename_i r₀ hr₀
    exact { h with
      namedIds := h.namedIds.rewrite hr₀ rfl
      namedKeys := h.namedKeys.rewrite hr₀ rfl
      accepts := haccepts rfl
      distinct := hdistinct }
  · exact { h with
      namedIds := h.namedIds.put _ fun s r hr => (hfresh.named s r hr).1
      namedKeys := h.namedKeys.put _ fun s r hr => (hfresh.named s r hr).2
      accepts := haccepts rfl
      distinct := hdistinct }

theorem sessions_ensureAgent : (ensureAgent k name d).2.sessions = k.sessions := by
  unfold ensureAgent
  split <;> rfl

theorem Held.openSession (h : Held D k issued) {d' : Drawn} (hfresh : Fresh D k issued d)
    (hfresh' : Fresh D k issued d') (asked : List String) (w : Moment) :
    Held D (openSession D k name asked w d d').2 issued := by
  have hagent : Held D (Principals.ensureAgent k name d).2 issued := h.ensureAgent hfresh
  have hopened : ∀ stem cap expires, Held D { (Principals.ensureAgent k name d).2 with
      sessions := Function.update (Principals.ensureAgent k name d).2.sessions stem
        (some ⟨d'.id, cap, expires, d'.key⟩) } issued := fun stem cap expires =>
    { hagent with
      sessionIds := hagent.sessionIds.put _ fun s r hr =>
        (hfresh'.sessions s r (sessions_ensureAgent ▸ hr)).1
      sessionKeys := hagent.sessionKeys.put _ fun s r hr =>
        (hfresh'.sessions s r (sessions_ensureAgent ▸ hr)).2 }
  unfold Principals.openSession
  dsimp only
  split
  · exact hagent
  · split
    · split
      · exact hagent
      · exact hopened _ _ _
    · exact hopened _ _ _

theorem Reached.held (h : Reached D k issued) : Held D k issued := by
  induction h with
  | start =>
      have hnone : ∀ {ρ β : Type} (π : ρ → β), Unshared (fun _ => none) π := by
        intro ρ β π s s' r r' hr
        cases hr
      refine ⟨hnone _, hnone _, hnone _, hnone _, hnone _, hnone _, ?_,
        List.nodup_nil⟩
      intro s r hr
      cases hr
  | step e _ hfresh ih =>
      cases e with
      | ensureAgent name d =>
          rw [show (Event.ensureAgent name d).issued = [] from rfl, List.append_nil]
          exact ih.ensureAgent (hfresh d (List.mem_singleton_self d))
      | grant kind name d => exact ih.grantNamed (hfresh d (List.mem_singleton_self d)) kind
      | setGrant name t =>
          rw [show (Event.setGrant name t).issued = [] from rfl, List.append_nil]
          exact ih.setGrantTemplate t
      | openSession name asked w d d' =>
          rw [show (Event.openSession name asked w d d').issued = [] from rfl, List.append_nil]
          exact ih.openSession (hfresh d List.mem_cons_self)
            (hfresh d' (List.mem_cons_of_mem _ (List.mem_singleton_self d'))) asked w

theorem Unshared.apart {ρ β : Type} {f : String → Option ρ} {π : ρ → β} (h : Unshared f π)
    {s s' : String} (hne : s ≠ s') {r r' : ρ} (hr : f s = some r) (hr' : f s' = some r') :
    π r ≠ π r' := fun heq => hne (h s s' r r' hr hr' heq)

theorem openExternal_ok {credential : String} {actor : Actor}
    (h : openExternal D k name (some credential) = .ok actor) :
    ∃ kind r, k.named (namedStem kind name) = some r ∧
      r.hash = some (D.credentialHash credential) ∧ actor.principal = r.id := by
  unfold openExternal at h
  dsimp only at h
  split at h
  · cases h
  · rename_i r hr
    split at h
    · cases h
    · cases h
    · rename_i digest p hdigest hp
      obtain rfl := Option.some.inj hp
      by_cases hbad : D.credentialHash credential ≠ digest
      · rw [if_pos hbad] at h
        cases h
      · rw [if_neg hbad] at h
        obtain rfl := Except.ok.inj h
        exact ⟨_, r, hr, hdigest.trans (congrArg some (not_not.mp hbad).symm), rfl⟩

theorem named_grantNamed {kind : NamedKind} {s : String} (h : s ≠ namedStem kind name) :
    (grantNamed D k kind name d).2.named s = k.named s := by
  unfold grantNamed
  dsimp only
  split
  · exact Function.update_of_ne h _ _
  · exact Function.update_of_ne h _ _

end Invariant

/-- In every directory that is reached, two names are apart exactly if files carry them
differently. -/
theorem apart_iff (D : Digests) {k : Keys} {issued : List Issue} (h : Reached D k issued)
    (n m : String) : Apart D k issued n m ↔ safeName n ≠ safeName m := by
  refine ⟨fun hapart heq => hapart.grants (grantStem_inj.mpr heq), fun hne => ?_⟩
  have hheld := h.held
  have hagent : agentStem n ≠ agentStem m := fun heq => hne (agentStem_inj.mp heq)
  have hnamed : ∀ kind kind', namedStem kind n ≠ namedStem kind' m := fun _ _ heq =>
    hne (namedStem_inj.mp heq).2
  have hsession : ∀ paths paths', sessionStem D n paths ≠ sessionStem D m paths' := fun _ _ heq =>
    hne (safeName_of_sessionStem heq)
  refine ⟨⟨hagent, fun r r' hr hr' => ⟨hheld.agentIds.apart hagent hr hr',
    hheld.agentKeys.apart hagent hr hr'⟩⟩, fun kind => ⟨hnamed kind kind, fun r r' hr hr' =>
    ⟨hheld.namedIds.apart (hnamed kind kind) hr hr',
      hheld.namedKeys.apart (hnamed kind kind) hr hr'⟩⟩, fun heq => hne (grantStem_inj.mp heq),
    fun paths paths' => ⟨hsession paths paths', fun r r' hr hr' =>
      ⟨hheld.sessionIds.apart (hsession paths paths') hr hr',
        hheld.sessionKeys.apart (hsession paths paths') hr hr'⟩⟩, ?_,
    fun kind d kind' => named_grantNamed (hnamed kind kind').symm⟩
  intro kind credential hissued actor hopen
  obtain ⟨kind', r, hr, hhash, -⟩ := openExternal_ok hopen
  obtain ⟨i, hi, hstem, hdigest⟩ := hheld.accepts _ r hr
  have hsame : (⟨kind, n, credential⟩ : Issue) = i :=
    List.inj_on_of_nodup_map hheld.distinct hissued hi
      (Option.some.inj (hhash.symm.trans hdigest))
  rw [← hsame] at hstem
  exact hnamed kind kind' hstem.symm

section Agents

def drawn (n : ℕ) : Drawn where
  id := .splat n
  key := ⟨(ObjectId.splat n).bytes, (ObjectId.splat n).length_bytes⟩
  cap := .splat n
  credential := ""

/-- A directory with the agent of one name. -/
def oneAgent (name : String) : Keys := (ensureAgent Keys.empty name (drawn 1)).2

theorem reached_oneAgent (D : Digests) (name : String) : Reached D (oneAgent name) [] := by
  refine Reached.step (.ensureAgent name (drawn 1)) Reached.start fun d _ => ?_
  refine ⟨fun s r hr => ?_, fun s r hr => ?_, fun s r hr => ?_,
    fun i hi => absurd hi List.not_mem_nil⟩
  all_goals cases hr

/-- The hash of the one scope these directories tag. -/
def noDigests : Digests := ⟨id, fun _ => ⟨"af1349b9f5f9", rfl⟩⟩

theorem apart_agents : Apart noDigests (oneAgent "ci-bot") [] "ci-bot" "ci_bot" :=
  (apart_iff noDigests (reached_oneAgent noDigests "ci-bot") "ci-bot" "ci_bot").mpr
    (by decide +kernel)

/-- The second name is answered with the principal and the key of the first. -/
theorem dotted_name_shared : Reached noDigests (oneAgent "ci.bot") [] ∧
    (ensureAgent (oneAgent "ci.bot") "ci_bot" (drawn 2)).1 = ((drawn 1).id, (drawn 1).key) ∧
    ¬ Apart noDigests (oneAgent "ci.bot") [] "ci.bot" "ci_bot" := by
  refine ⟨reached_oneAgent _ _, by decide +kernel, fun h => h.grants (by decide +kernel)⟩

end Agents

end Tessra.Daemon.Principals
