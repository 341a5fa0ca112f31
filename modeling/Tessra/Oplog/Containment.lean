import Tessra.Oplog.GlobLaws
import Tessra.Oplog.Revocation

namespace Tessra.Oplog

open Tessra.Core Tessra.Data StoreM OpLog Verify

/-! What a capability allows, against those it was delegated from. -/

section Limits

variable {α : Type} {within : α → α → Bool} {a b c : Option (List α)}

theorem allowsWithin_refl (hrefl : ∀ x, within x x = true) :
    allowsWithin within a a = true := by
  cases a with
  | none => rfl
  | some l =>
      rw [allowsWithin, List.all_eq_true]
      exact fun x hx => List.any_eq_true.mpr ⟨x, hx, hrefl x⟩

theorem allowsWithin_some {l : List α} (h : allowsWithin within a (some l) = true) :
    ∃ l', a = some l' ∧ ∀ x ∈ l', ∃ y ∈ l, within x y = true := by
  cases a with
  | none => cases h
  | some l' => exact ⟨l', rfl, by simpa [allowsWithin] using h⟩

theorem allowsWithin_trans (htrans : ∀ x y z, within x y = true → within y z = true → within x z = true)
    (hab : allowsWithin within a b = true) (hbc : allowsWithin within b c = true) :
    allowsWithin within a c = true := by
  cases c with
  | none => cases a <;> rfl
  | some lc =>
      obtain ⟨lb, rfl, hb⟩ := allowsWithin_some hbc
      obtain ⟨la, rfl, ha⟩ := allowsWithin_some hab
      rw [allowsWithin, List.all_eq_true]
      intro x hx
      obtain ⟨y, hy, hxy⟩ := ha x hx
      obtain ⟨z, hz, hyz⟩ := hb y hy
      exact List.any_eq_true.mpr ⟨z, hz, htrans x y z hxy hyz⟩

/-- Does a list of what is allowed allow this?  None allows all. -/
def allows [DecidableEq α] (allowed : Option (List α)) (x : α) : Bool := allowed.all (x ∈ ·)

theorem allows_of_sameOrFewer [DecidableEq α] (h : sameOrFewer a b = true) {x : α}
    (hx : allows a x = true) : allows b x = true := by
  cases b with
  | none => rfl
  | some lb =>
      obtain ⟨la, rfl, ha⟩ := allowsWithin_some h
      obtain ⟨y, hy, hxy⟩ := ha x (of_decide_eq_true hx)
      rw [of_decide_eq_true hxy]
      exact decide_eq_true hy

def limitOf (hard : Option (OrdMap String ℕ)) (key : String) : Option ℕ :=
  hard.bind fun limits => limits.get? key

theorem limitsWithin_iff {child parent : Option (OrdMap String ℕ)} :
    limitsWithin child parent = true ↔ (parent.isSome → child.isSome ∧ ∀ key m,
      limitOf child key = some m → ∃ n, limitOf parent key = some n ∧ m ≤ n) := by
  cases parent with
  | none => cases child <;> simp [limitsWithin]
  | some p =>
      cases child with
      | none => simp [limitsWithin]
      | some c =>
          simp only [limitsWithin, List.all_eq_true, Option.any_eq_true, decide_eq_true_eq,
            Option.isSome_some, true_and, forall_const, limitOf, Option.bind_some]
          constructor
          · intro h key m hm
            exact h ⟨key, m⟩ (OrdMap.mem_entries.mpr hm)
          · intro h e he
            exact h e.1 e.2 (OrdMap.mem_entries.mp he)

theorem limitsWithin_trans {leaf middle above : Option (OrdMap String ℕ)}
    (h : limitsWithin leaf middle = true) (habove : limitsWithin middle above = true) :
    limitsWithin leaf above = true := by
  rw [limitsWithin_iff] at h habove ⊢
  intro hsome
  obtain ⟨hmiddle, hlimits⟩ := habove hsome
  obtain ⟨hleaf, hbelow⟩ := h hmiddle
  refine ⟨hleaf, fun key m hm => ?_⟩
  obtain ⟨n, hn, hmn⟩ := hbelow key m hm
  obtain ⟨k, hk, hnk⟩ := hlimits key n hn
  exact ⟨k, hk, hmn.trans hnk⟩

/-- What a path has to match, one of several patterns.  None allows all. -/
def allowsPath (patterns : Option (List String)) (path : String) : Bool :=
  patterns.all fun ps => Glob.anyMatch ps path

theorem allowsPath_of_tight {path : String}
    (hpath : Glob.IsPath path) {leaf above : Option (List String)}
    (htight : allowsWithin Glob.tight leaf above = true) (h : allowsPath leaf path = true) :
    allowsPath above path = true := by
  cases above with
  | none => rfl
  | some ps =>
      obtain ⟨cs, rfl, hcs⟩ := allowsWithin_some htight
      obtain ⟨c, hc, hmatch⟩ := List.any_eq_true.mp h
      obtain ⟨p, hp, hcp⟩ := hcs c hc
      exact List.any_eq_true.mpr ⟨p, hp, Glob.matches_of_tight hpath hcp hmatch⟩

/-- The memories that a read scope's level shows: one's own, those that are
shared too, or all. -/
def showsMemory (level : Option String) (kind : String) : Bool :=
  match level with
  | none => true
  | some level => level = "all" || kind = level || (level = "shared" && kind = "own")

end Limits

/-- In every dimension, a capability is no wider than one above it. -/
structure NoWider (leaf above : Capability) : Prop where
  verbs : ∀ verb ∈ leaf.verbs, verb ∈ above.verbs
  writePaths : ∀ path, Glob.IsPath path → allowsPath leaf.write.paths path = true →
    allowsPath above.write.paths path = true
  readPaths : ∀ path, Glob.IsPath path → allowsPath leaf.read.paths path = true →
    allowsPath above.read.paths path = true
  roots : ∀ root, allows leaf.write.roots root = true → allows above.write.roots root = true
  stages : ∀ stage, allows leaf.write.stages stage = true → allows above.write.stages stage = true
  memoryScopes : ∀ scope, allows leaf.write.memoryScopes scope = true →
    allows above.write.memoryScopes scope = true
  nodes : ∀ node, allows leaf.write.nodes node = true → allows above.write.nodes node = true
  lines : ∀ line, allows leaf.write.lines line = true → allows above.write.lines line = true
  targets : ∀ target, allows leaf.write.targets target = true →
    allows above.write.targets target = true
  readRoots : ∀ root, allows leaf.read.roots root = true → allows above.read.roots root = true
  memory : ∀ kind, showsMemory leaf.read.memory kind = true →
    showsMemory above.read.memory kind = true
  hard : ∀ key n, limitOf above.hard key = some n → ∃ m, limitOf leaf.hard key = some m ∧ m ≤ n

/-- What a link of a chain leaves to what is above it. -/
structure Narrows (child parent : Capability) : Prop where
  verbs : ∀ verb ∈ child.verbs, verb ∈ parent.verbs
  roots : sameOrFewer child.write.roots parent.write.roots = true
  stages : sameOrFewer child.write.stages parent.write.stages = true
  memoryScopes : sameOrFewer child.write.memoryScopes parent.write.memoryScopes = true
  nodes : sameOrFewer child.write.nodes parent.write.nodes = true
  lines : sameOrFewer child.write.lines parent.write.lines = true
  targets : sameOrFewer child.write.targets parent.write.targets = true
  hard : limitsWithin child.hard parent.hard = true

theorem narrows_of_containedIn {child parent : Capability} (h : containedIn child parent = true) :
    Narrows child parent := by
  simp only [containedIn, Bool.and_eq_true, List.all_eq_true, decide_eq_true_eq] at h
  obtain ⟨⟨⟨⟨⟨⟨⟨⟨⟨hverbs, _⟩, _⟩, hroots⟩, hstages⟩, hscopes⟩, hnodes⟩, hlines⟩, htargets⟩, hhard⟩ := h
  exact ⟨hverbs, hroots, hstages, hscopes, hnodes, hlines, htargets, hhard⟩

theorem sameOrFewer_refl {α : Type} [DecidableEq α] (a : Option (List α)) :
    sameOrFewer a a = true := allowsWithin_refl fun _ => decide_eq_true rfl

theorem sameOrFewer_trans {α : Type} [DecidableEq α] {a b c : Option (List α)}
    (hab : sameOrFewer a b = true) (hbc : sameOrFewer b c = true) : sameOrFewer a c = true :=
  allowsWithin_trans (fun _ _ _ hxy hyz =>
    decide_eq_true ((of_decide_eq_true hxy).trans (of_decide_eq_true hyz))) hab hbc

theorem Narrows.refl (cap : Capability) : Narrows cap cap where
  verbs _ h := h
  roots := sameOrFewer_refl _
  stages := sameOrFewer_refl _
  memoryScopes := sameOrFewer_refl _
  nodes := sameOrFewer_refl _
  lines := sameOrFewer_refl _
  targets := sameOrFewer_refl _
  hard := limitsWithin_iff.mpr fun hsome => ⟨hsome, fun _ m hm => ⟨m, hm, le_rfl⟩⟩

theorem Narrows.trans {a b c : Capability} (hab : Narrows a b) (hbc : Narrows b c) :
    Narrows a c where
  verbs verb h := hbc.verbs verb (hab.verbs verb h)
  roots := sameOrFewer_trans hab.roots hbc.roots
  stages := sameOrFewer_trans hab.stages hbc.stages
  memoryScopes := sameOrFewer_trans hab.memoryScopes hbc.memoryScopes
  nodes := sameOrFewer_trans hab.nodes hbc.nodes
  lines := sameOrFewer_trans hab.lines hbc.lines
  targets := sameOrFewer_trans hab.targets hbc.targets
  hard := limitsWithin_trans hab.hard hbc.hard

section Chains

variable [Crypto] {F S S' : Store} {log : OpLog} {op : Op} {view : View} {c : Contents}
  {leaf id pid : ObjectId} {leafCap cap : Capability} {past : List Delivery}

theorem Delegated.narrows (h : Delegated F view c leaf leafCap) (hon : OnChain F leaf id cap) :
    Narrows leafCap cap := by
  obtain ⟨hpath, hcap⟩ := hon
  induction hpath generalizing cap with
  | refl =>
      have hsame := h.issued.stored.symm.trans hcap
      cases hsame
      exact .refl leafCap
  | tail hpath hstep ih =>
      obtain ⟨child, hchild, hparent⟩ := hstep
      have hbelow := ih hchild
      cases h.onChain ⟨hpath, hchild⟩ with
      | root _ hnone => rw [hnone] at hparent; cases hparent
      | child _ hsome _ _ _ hwithin habove =>
          rw [hsome] at hparent
          cases hparent
          have hsame := hcap.symm.trans habove.issued.stored
          cases hsame
          exact hbelow.trans (narrows_of_containedIn hwithin)

/-- A link whose patterns are covered tightly. -/
def TightLink (S : Store) (patterns : Capability → Option (List String)) (id pid : ObjectId) :
    Prop :=
  ∃ cap parent, (get Capability id).value S = .ok cap ∧ cap.parent = some pid ∧
    (get Capability pid).value S = .ok parent ∧
    allowsWithin Glob.tight (patterns cap) (patterns parent) = true

/-- What tight links allow, the capability above them allows. -/
theorem allowsPath_of_tightLinks {patterns : Capability → Option (List String)}
    (hleaf : (get Capability leaf).value S = .ok leafCap) (hcap : (get Capability id).value S = .ok cap)
    (h : Relation.ReflTransGen (TightLink S patterns) leaf id) {path : String}
    (hpath : Glob.IsPath path) (hallows : allowsPath (patterns leafCap) path = true) :
    allowsPath (patterns cap) path = true := by
  induction h generalizing cap with
  | refl =>
      have hsame := hleaf.symm.trans hcap
      cases hsame
      exact hallows
  | tail _ hstep ih =>
      obtain ⟨child, parent, hchild, _, hparent, htight⟩ := hstep
      have hsame := hcap.symm.trans hparent
      cases hsame
      exact allowsPath_of_tight hpath htight (ih hchild)

/-- The paths of the leaf's patterns stay within those above: because every link
between covers its patterns tightly, or because no path tells otherwise. -/
def PathsConfined (S : Store) (patterns : Capability → Option (List String)) (leaf : ObjectId)
    (leafCap : Capability) (id : ObjectId) (cap : Capability) : Prop :=
  Relation.ReflTransGen (TightLink S patterns) leaf id ∨ ∀ path, Glob.IsPath path →
    allowsPath (patterns leafCap) path = true → allowsPath (patterns cap) path = true

/-- What no check of a chain makes sure of. -/
structure Confined (S : Store) (leaf : ObjectId) (leafCap : Capability) (id : ObjectId)
    (cap : Capability) : Prop where
  writePaths : PathsConfined S (·.write.paths) leaf leafCap id cap
  readPaths : PathsConfined S (·.read.paths) leaf leafCap id cap
  readRoots : ∀ root, allows leafCap.read.roots root = true → allows cap.read.roots root = true
  memory : ∀ kind, showsMemory leafCap.read.memory kind = true →
    showsMemory cap.read.memory kind = true
  limits : ∀ key, (limitOf cap.hard key).isSome → (limitOf leafCap.hard key).isSome

theorem Narrows.noWider_iff (h : Narrows leafCap cap)
    (hleaf : (get Capability leaf).value S = .ok leafCap)
    (hcap : (get Capability id).value S = .ok cap) :
    NoWider leafCap cap ↔ Confined S leaf leafCap id cap := by
  constructor
  · intro hno
    refine ⟨.inr hno.writePaths, .inr hno.readPaths, hno.readRoots, hno.memory, fun key hkey => ?_⟩
    obtain ⟨n, hn⟩ := Option.isSome_iff_exists.mp hkey
    obtain ⟨m, hm, _⟩ := hno.hard key n hn
    exact Option.isSome_iff_exists.mpr ⟨m, hm⟩
  · intro hconfined
    have hpaths : ∀ patterns : Capability → Option (List String),
        PathsConfined S patterns leaf leafCap id cap → ∀ path, Glob.IsPath path →
          allowsPath (patterns leafCap) path = true → allowsPath (patterns cap) path = true := by
      intro patterns hpatterns path hpath hallows
      rcases hpatterns with hlinks | hall
      · exact allowsPath_of_tightLinks hleaf hcap hlinks hpath hallows
      · exact hall path hpath hallows
    exact {
      verbs := h.verbs
      writePaths := hpaths _ hconfined.writePaths
      readPaths := hpaths _ hconfined.readPaths
      roots := fun _ => allows_of_sameOrFewer h.roots
      stages := fun _ => allows_of_sameOrFewer h.stages
      memoryScopes := fun _ => allows_of_sameOrFewer h.memoryScopes
      nodes := fun _ => allows_of_sameOrFewer h.nodes
      lines := fun _ => allows_of_sameOrFewer h.lines
      targets := fun _ => allows_of_sameOrFewer h.targets
      readRoots := hconfined.readRoots
      memory := hconfined.memory
      hard := fun key n hn => by
        obtain ⟨m, hm⟩ := Option.isSome_iff_exists.mp (hconfined.limits key (by simp [hn]))
        have hsome : cap.hard.isSome := by
          cases hhard : cap.hard with
          | none => simp [hhard, limitOf] at hn
          | some limits => rfl
        obtain ⟨k, hk, hmk⟩ := (limitsWithin_iff.mp h.hard hsome).2 key m hm
        rw [hn] at hk
        cases hk
        exact ⟨m, hm, hmk⟩ }

/-- In every run, the capability of an op of someone who is not an owner is no
wider than one on its chain, exactly if it is confined by that one. -/
theorem chainNoWider_iff (hrun : LogRun past S log) (hfree : CollisionFree ((log.accept op).after S))
    (hnonOwner : NonOwner S log op) (hverified : Delivery.Verified ⟨S, log, op⟩) :
    ∃ leaf leafCap, op.cap = some leaf ∧
      (get Capability leaf).value ((log.accept op).after S) = .ok leafCap ∧
      ∀ id cap, OnChain ((log.accept op).after S) leaf id cap →
        (NoWider leafCap cap ↔ Confined ((log.accept op).after S) leaf leafCap id cap) := by
  obtain ⟨hparents, owners, howners, hauthor⟩ := hnonOwner
  obtain ⟨middle, v, _, v', cv, _, hvetted⟩ :=
    hrun.reached.verified hparents hverified (List.Subset.refl _) hfree
  rw [hvetted.parents.ownersIn] at howners
  cases howners
  obtain ⟨leaf, leafCap, hauthorized, hchain⟩ := hvetted.delegated hfree hauthor
  have hleaf := hchain.issued.stored
  exact ⟨leaf, leafCap, hauthorized.cited, hleaf, fun id cap hon =>
    (hchain.narrows hon).noWider_iff hleaf hon.2⟩

end Chains

section Samples

/-! The worker's capability, against the planner's that it was delegated from. -/

local instance delegateHash : Crypto :=
  .ofTable (delegateTable ++ [.op (workerOp "status" [] (.splat 16))])

def delegated : Store × OpLog := deliverAll delegateBase .new [delegateInit, delegateGrant]

def workerAccepted : Store := (delegated.2.accept (workerOp "status" [] (.splat 16))).after delegated.1

/-- The worker's op is accepted under a capability that allows a path and a root
that the planner's does not, and drops its limit on ops. -/
theorem worker_exceeds_planner :
    LogRun (deliveries delegateBase .new [delegateInit, delegateGrant]) delegated.1 delegated.2 ∧
    CollisionFree workerAccepted ∧
    NonOwner delegated.1 delegated.2 (workerOp "status" [] (.splat 16)) ∧
    Delivery.Verified ⟨delegated.1, delegated.2, workerOp "status" [] (.splat 16)⟩ ∧
    OnChain workerAccepted (.splat 6) (.splat 5) plannerCapability ∧
    Glob.IsPath "ab/c" ∧ allowsPath workerCapability.write.paths "ab/c" = true ∧
    allowsPath plannerCapability.write.paths "ab/c" = false ∧
    allows workerCapability.read.roots "src" = true ∧
    allows plannerCapability.read.roots "src" = false ∧
    limitOf plannerCapability.hard "ops" = some 1 ∧ limitOf workerCapability.hard "ops" = none ∧
    ¬ NoWider workerCapability plannerCapability := by
  have hchild : (get Capability (.splat 6)).value workerAccepted = .ok workerCapability := by
    decide +kernel
  have hread : allows plannerCapability.read.roots "src" = false := by decide
  refine ⟨logRun_deliverAll _ _, collisionFree_ofTable (by decide) (by decide +kernel),
    by decide +kernel, by decide +kernel, ⟨.single ⟨workerCapability, hchild, rfl⟩, by decide +kernel⟩,
    by decide +kernel, by decide +kernel, by decide +kernel, by decide, hread, by decide, by decide,
    fun hno => ?_⟩
  rw [hno.readRoots "src" (by decide)] at hread
  cases hread

theorem chainNoWider_iff_worker :
    ∃ leaf leafCap, (workerOp "status" [] (.splat 16)).cap = some leaf ∧
      (get Capability leaf).value workerAccepted = .ok leafCap ∧
      ∀ id cap, OnChain workerAccepted leaf id cap →
        (NoWider leafCap cap ↔ Confined workerAccepted leaf leafCap id cap) :=
  chainNoWider_iff (logRun_deliverAll delegateBase [delegateInit, delegateGrant])
    (collisionFree_ofTable (by decide) (by decide +kernel)) (by decide +kernel) (by decide +kernel)

end Samples

end Tessra.Oplog
