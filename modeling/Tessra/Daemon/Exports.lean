import Tessra.Daemon.Mapping

namespace Tessra.Daemon

open Tessra.Core Tessra.Data Tessra.Oplog Verify StoreM Relation

/-! What exports write and remember, and every run of the bridge. -/

section Writing

variable {g g' : List (Node CommitId Content)} {parent : Option CommitId}
  {pending : List (ObjectId × Revision)} {mapped : List (ObjectId × CommitId)}

theorem Writes.grown (h : Writes g parent pending g' mapped) :
    (∃ newer, g' = newer ++ g) ∧ mapped.map Prod.fst = pending.map Prod.fst := by
  induction h with
  | nil => exact ⟨⟨[], rfl⟩, rfl⟩
  | @create g g' parent id r rest mapped n _ _ _ _ ih =>
      obtain ⟨⟨newer, rfl⟩, hids⟩ := ih
      exact ⟨⟨newer ++ [n], by rw [List.append_assoc, List.singleton_append]⟩,
        congrArg (id :: ·) hids⟩
  | @reuse g g' parent id r rest mapped n _ _ _ ih => exact ⟨ih.1, congrArg (id :: ·) ih.2⟩

theorem exportTip_cons (parent : Option CommitId) (e : ObjectId × CommitId)
    (mapped : List (ObjectId × CommitId)) :
    exportTip parent (e :: mapped) = exportTip (some e.2) mapped := by
  rw [exportTip, exportTip, List.map_cons, List.getLast?_cons]
  cases (mapped.map Prod.snd).getLast? <;> rfl

/-- The tip of an export has what it builds on and what it maps behind it. -/
theorem Writes.behind_tip (h : Writes g parent pending g' mapped) (hgrown : Grown g') :
    (∀ p, parent = some p → p ∈ ids g →
      ∃ tip, exportTip parent mapped = some tip ∧ Behind g' tip p) ∧
    ∀ e ∈ mapped, ∃ tip, exportTip parent mapped = some tip ∧ Behind g' tip e.2 := by
  induction h with
  | @nil g parent =>
      refine ⟨fun p hp hmem => ⟨p, hp, behind_self hmem⟩, fun e he => ?_⟩
      cases he
  | @create g g' parent id r rest mapped n hgrows hparents _ hrest ih =>
      obtain ⟨⟨newer, rfl⟩, _⟩ := hrest.grown
      obtain ⟨hbuilt, hmapped⟩ := ih hgrown
      obtain ⟨tip, htip, hbehind⟩ := hbuilt n.id rfl List.mem_cons_self
      rw [exportTip_cons]
      refine ⟨fun p hp _ => ⟨tip, htip, hbehind.trans hgrown ?_⟩,
        List.forall_mem_cons.mpr ⟨⟨tip, htip, hbehind⟩, hmapped⟩⟩
      refine hgrown.behind_parent (List.mem_append_right _ List.mem_cons_self) ?_
      rw [hparents, hp]
      exact List.mem_singleton_self p
  | @reuse g g' parent id r rest mapped n hn hparents hrest ih =>
      obtain ⟨⟨newer, rfl⟩, _⟩ := hrest.grown
      obtain ⟨hbuilt, hmapped⟩ := ih hgrown
      obtain ⟨tip, htip, hbehind⟩ := hbuilt n.id rfl (List.mem_map_of_mem hn)
      rw [exportTip_cons]
      refine ⟨fun p hp _ => ⟨tip, htip, hbehind.trans hgrown ?_⟩,
        List.forall_mem_cons.mpr ⟨⟨tip, htip, hbehind⟩, hmapped⟩⟩
      refine hgrown.behind_parent (List.mem_append_right _ hn) ?_
      rw [hparents, hp]
      exact List.mem_singleton_self p

end Writing

section Exporting

variable [Crypto] {s : Bridge} {branch : String} {parent parent' : Option CommitId}
  {chain pending pending' : List (ObjectId × Revision)}

/-- An export writes the newest revisions, and builds on a commit of another. -/
theorem exportFrom_suffix (h : s.exportFrom branch parent pending chain = (parent', pending'))
    (hsuffix : chain <:+ pending) : pending' <:+ pending ∧
      (parent' = parent ∨ ∃ e ∈ chain, ∃ c, s.commitOf e.1 e.2 = some c ∧ parent' = some c) := by
  induction chain generalizing parent pending with
  | nil =>
      cases h
      exact ⟨List.suffix_refl _, .inl rfl⟩
  | cons e rest ih =>
      have hrest : rest <:+ pending := (List.suffix_cons e rest).trans hsuffix
      have hlater : (parent' = parent ∨
            ∃ e' ∈ rest, ∃ c, s.commitOf e'.1 e'.2 = some c ∧ parent' = some c) →
          parent' = parent ∨
            ∃ e' ∈ e :: rest, ∃ c, s.commitOf e'.1 e'.2 = some c ∧ parent' = some c :=
        Or.imp_right fun ⟨e', he', hfound⟩ => ⟨e', List.mem_cons_of_mem _ he', hfound⟩
      rw [Bridge.exportFrom] at h
      cases hcommit : s.commitOf e.1 e.2 with
      | none =>
          rw [hcommit] at h
          obtain ⟨hnewest, hparent⟩ := ih h hrest
          exact ⟨hnewest, hlater hparent⟩
      | some c =>
          simp only [hcommit] at h
          split_ifs at h
          · obtain ⟨hnewest, hparent⟩ := ih h (List.suffix_refl rest)
            refine ⟨hnewest.trans hrest, .inr ?_⟩
            rcases hparent with hparent | ⟨e', he', hfound⟩
            · exact ⟨e, List.mem_cons_self, c, hcommit, hparent⟩
            · exact ⟨e', List.mem_cons_of_mem _ he', hfound⟩
          · obtain ⟨hnewest, hparent⟩ := ih h hrest
            exact ⟨hnewest, hlater hparent⟩

/-- The graph grows, and every commit that waits is still on its branch. -/
theorem Bridged.grow {g : List (Node CommitId Content)} {branches : OrdMap String CommitId}
    (h : Bridged s) (hgrown : Grown (g ++ s.graph))
    (htips : ∀ b tip, branches.get? b = some tip → tip ∈ ids (g ++ s.graph))
    (hwaiting : ∀ w ∈ s.waiting, ∃ tip, branches.get? w.1 = some tip ∧
      w.2 ∈ firstParents (g ++ s.graph) (some tip)) :
    Bridged { s with graph := g ++ s.graph, grown := hgrown, branches := branches } where
  chain := by
    obtain ⟨chain, hchain⟩ := h.chain
    exact ⟨chain, hchain.value, hchain.nodup,
      fun e he c hc => mem_ids_append (hchain.graph e he c hc)⟩
  tips := htips
  recorded := h.recorded
  mapped := h.mapped
  waiting w hw := by
    obtain ⟨hunknown, _, hahead⟩ := h.waiting w hw
    refine ⟨hunknown, hwaiting w hw, fun k hk hbehind => ?_⟩
    have hk : Knows s k := hk.congr rfl rfl rfl
    obtain ⟨chain, hchain⟩ := h.chain
    exact hahead k hk ((hgrown.behind_append (hchain.mem_graph hk)).mp hbehind)
  made := h.made

theorem Bridged.on_line (h : Bridged s) {g : List (Node CommitId Content)}
    (hgrown : Grown (g ++ s.graph)) {w : String × CommitId} (hw : w ∈ s.waiting) :
    ∃ tip, s.branches.get? w.1 = some tip ∧ w.2 ∈ firstParents (g ++ s.graph) (some tip) := by
  obtain ⟨_, ⟨tip, htip, hline⟩, _⟩ := h.waiting w hw
  refine ⟨tip, htip, ?_⟩
  rw [hgrown.firstParents_append (h.tips w.1 tip htip)]
  exact hline

/-- Every revision that an export maps is remembered, the last one's tip in front. -/
theorem Bridged.rememberAll {mapped : List (ObjectId × CommitId)} (h : Bridged s)
    (hnodup : (mapped.map Prod.fst).Nodup)
    (htrunk : ∀ e ∈ mapped, Reaches s.store s.head e.1 ∧
      ∃ rev, (get Revision e.1).value s.store = .ok rev)
    (hsame : ∀ e ∈ mapped, ∀ c, s.Is e.1 c → c = e.2)
    (hgraph : ∀ e ∈ mapped, e.2 ∈ ids s.graph ∧ ∀ w ∈ s.waiting, ¬ Behind s.graph e.2 w.2) :
    Bridged (s.rememberAll mapped) := by
  induction mapped generalizing s with
  | nil => exact h
  | cons e mapped ih =>
      obtain ⟨hfresh, hnodup⟩ := List.nodup_cons.mp hnodup
      obtain ⟨⟨hreaches, rev, hget⟩, htrunk⟩ := List.forall_mem_cons.mp htrunk
      obtain ⟨hsame₁, hsame⟩ := List.forall_mem_cons.mp hsame
      obtain ⟨⟨hmem, hclear⟩, hgraph⟩ := List.forall_mem_cons.mp hgraph
      refine ih (h.remember hreaches hget hsame₁ hmem hclear) hnodup htrunk ?_ hgraph
      intro e' he' c hc
      rcases hc.of_remember with hc | ⟨heq, _⟩
      · exact hsame e' he' c hc
      · exact absurd (heq ▸ List.mem_map_of_mem he') hfresh

end Exporting

section Steps

variable [Crypto] {s s' : Bridge} {e : Bridge.Event}

/-- What a step must not do to the map: land or import a body that names another commit,
write a revision that is a commit as another one, or put commits that wait behind what
is known or off their branch. -/
def Bridge.Meets (s : Bridge) : Bridge.Event → Prop
  | .commit _ _ => True
  | .land r => ∀ c, r.body.bind namedCommit = some c →
      c ∈ ids s.graph ∧ ∀ w ∈ s.waiting, w.2 ≠ c → ¬ Behind s.graph c w.2
  | .imports _ commits => ∀ n ∈ s.graph, n.id ∈ commits → Plain n.data.message n.id
  | .exports branch graph mapped tip moved =>
      (∀ e ∈ mapped, ∀ c, s.Is e.1 c → c = e.2) ∧
        ∀ w ∈ s.waiting, ¬ Behind graph tip w.2 ∧ (moved = true → w.1 ≠ branch)
  | .exportRefused _ => True

theorem Bridged.commit (h : Bridged s) {branch : String} {n : Node CommitId Content}
    (hgrown : Grown (n :: s.graph))
    (hfirst : ∀ tip, s.branches.get? branch = some tip → n.parents.head? = some tip) :
    Bridged { s with
      graph := n :: s.graph
      grown := hgrown
      branches := s.branches.insert branch n.id } := by
  have hgrew : Grown ([n] ++ s.graph) := hgrown
  refine h.grow hgrew (fun b tip htip => ?_) fun w hw => ?_
  · rw [OrdMap.get?_insert] at htip
    split_ifs at htip with heq
    · cases htip
      exact List.mem_cons_self
    · exact List.mem_cons_of_mem _ (h.tips b tip htip)
  · rw [OrdMap.get?_insert]
    split_ifs with heq
    · obtain ⟨_, ⟨tip, htip, hline⟩, _⟩ := h.waiting w hw
      refine ⟨n.id, rfl, ?_⟩
      rw [List.singleton_append, firstParents, if_pos rfl, hfirst tip (heq ▸ htip)]
      exact List.mem_cons_of_mem _ hline
    · exact h.on_line hgrew hw

/-- The tip of an export is in the graph, with what it maps behind it. -/
theorem Bridged.export_tip (h : Bridged s) {branch : String}
    {chain pending : List (ObjectId × Revision)} {parent : Option CommitId}
    {graph : List (Node CommitId Content)} {mapped : List (ObjectId × CommitId)} {tip : CommitId}
    (hchain : (trunkChain s.head).value s.store = .ok chain)
    (hstart : s.exportFrom branch none chain chain = (parent, pending))
    (hwrites : Writes s.graph parent pending graph mapped) (hgrown : Grown graph)
    (htip : exportTip parent mapped = some tip) :
    tip ∈ ids graph ∧ ∀ e ∈ mapped, Behind graph tip e.2 := by
  obtain ⟨hbuilt, hmapped⟩ := hwrites.behind_tip hgrown
  have hbehind : ∀ e ∈ mapped, Behind graph tip e.2 := fun e he => by
    obtain ⟨tip', htip', hbehind⟩ := hmapped e he
    cases htip.symm.trans htip'
    exact hbehind
  refine ⟨?_, hbehind⟩
  cases mapped with
  | cons e mapped => exact (hbehind e List.mem_cons_self).mem.1
  | nil =>
      obtain rfl : parent = some tip := htip
      obtain ⟨chain', hchain'⟩ := h.chain
      cases hchain.symm.trans (value_trunkChain hchain'.value)
      rcases (exportFrom_suffix hstart (List.suffix_refl _)).2 with hnone | ⟨e, he, c, hcommit, hc⟩
      · cases hnone
      · cases hc
        have hmem := hchain'.graph e (List.mem_reverse.mp he) tip hcommit
        obtain ⟨tip', htip', hbehind⟩ := hbuilt tip rfl hmem
        cases htip'
        exact hbehind.mem.1

theorem Bridged.exported (h : Bridged s) {branch : String}
    {chain pending : List (ObjectId × Revision)} {parent : Option CommitId}
    {graph : List (Node CommitId Content)} {mapped : List (ObjectId × CommitId)} {tip : CommitId}
    {moved : Bool} (hchain : (trunkChain s.head).value s.store = .ok chain)
    (hstart : s.exportFrom branch none chain chain = (parent, pending))
    (hwrites : Writes s.graph parent pending graph mapped) (hgrown : Grown graph)
    (htip : exportTip parent mapped = some tip)
    (hmeets : s.Meets (.exports branch graph mapped tip moved)) :
    Bridged ({ s with
        graph := graph
        grown := hgrown
        branches := if moved then s.branches.insert branch tip else s.branches
        : Bridge}.rememberAll mapped) := by
  obtain ⟨hsame, hwaiting⟩ := hmeets
  obtain ⟨htipmem, hbehind⟩ := h.export_tip hchain hstart hwrites hgrown htip
  obtain ⟨⟨newer, rfl⟩, hids⟩ := hwrites.grown
  obtain ⟨chain', hchain'⟩ := h.chain
  cases hchain.symm.trans (value_trunkChain hchain'.value)
  have hsuffix := (exportFrom_suffix hstart (List.suffix_refl _)).1
  have hgrew : Bridged { s with
      graph := newer ++ s.graph
      grown := hgrown
      branches := if moved then s.branches.insert branch tip else s.branches } := by
    refine h.grow hgrown (fun b t ht => ?_) fun w hw => ?_
    · cases moved with
      | false => exact mem_ids_append (h.tips b t ht)
      | true =>
          rw [if_pos rfl, OrdMap.get?_insert] at ht
          split_ifs at ht
          · cases ht
            exact htipmem
          · exact mem_ids_append (h.tips b t ht)
    · cases moved with
      | false => exact h.on_line hgrown hw
      | true =>
          rw [if_pos rfl, OrdMap.get?_insert, if_neg ((hwaiting w hw).2 rfl).symm]
          exact h.on_line hgrown hw
  refine hgrew.rememberAll ?_ (fun e he => ?_) hsame fun e he => ⟨(hbehind e he).mem.2, ?_⟩
  · rw [hids]
    refine List.Nodup.sublist (hsuffix.sublist.map Prod.fst) ?_
    rw [List.map_reverse, List.nodup_reverse]
    exact hchain'.nodup
  · have hmem : e.1 ∈ pending.map Prod.fst := hids ▸ List.mem_map_of_mem he
    obtain ⟨p, hp, heq⟩ := List.mem_map.mp hmem
    obtain ⟨hreaches, hget⟩ :=
      mem_trunkFrom s.free hchain'.value (List.mem_reverse.mp (hsuffix.subset hp))
    exact ⟨heq ▸ hreaches, p.2, heq ▸ hget⟩
  · exact fun w hw hw' => (hwaiting w hw).1 ((hbehind e he).trans hgrown hw')

/-- Every step that meets the condition keeps what holds. -/
theorem Bridged.step (h : Bridged s) (hstep : s.Step e s') (hmeets : s.Meets e) : Bridged s' := by
  cases hstep with
  | commit hgrown hfirst => exact h.commit hgrown hfirst
  | @land T r hT hadvances =>
      refine h.advance hT hadvances (fun c hc => (hmeets c hc).1) fun w hw => ?_
      obtain ⟨hmem, hother⟩ := List.mem_filter.mp hw
      refine ⟨hmem, fun c hc => (hmeets c hc).2 w hmem fun heq => ?_⟩
      rw [hc, heq] at hother
      simp at hother
  | @imports s' branch history commits hlisted himports =>
      have hcleared : Bridged { s with waiting := [] } :=
        h.store s.free (List.Subset.refl _) (List.forall_mem_nil _) h.made
      exact himports.kept hcleared rfl (hcleared.ahead hlisted hmeets)
  | exports hchain hstart hwrites hgrown htip hmoved =>
      exact h.exported hchain hstart hwrites hgrown htip hmeets
  | @exportRefused branch chain pending parent graph mapped hchain hstart hwrites hgrown =>
      obtain ⟨⟨newer, rfl⟩, _⟩ := hwrites.grown
      exact h.grow hgrown (fun b tip htip => mem_ids_append (h.tips b tip htip))
        fun w hw => h.on_line hgrown hw

/-- A repository that no bridge has touched: trunk can be read and has no revision
twice, and what its bodies name is in the graph. -/
structure Bridge.Start (s : Bridge) : Prop where
  revs : s.revs = []
  commits : s.commits = []
  waiting : s.waiting = []
  made : s.made = []
  chain : ∃ chain, Chained s chain
  tips : ∀ b tip, s.branches.get? b = some tip → tip ∈ ids s.graph

theorem Bridge.Start.kept (h : s.Start) : Bridged s where
  chain := h.chain
  tips := h.tips
  recorded e he := by
    rw [h.revs] at he
    cases he
  mapped c r hr := by
    rw [Bridge.revisionOfCommit, h.commits] at hr
    cases hr
  waiting w hw := by
    rw [h.waiting] at hw
    cases hw
  made e he := by
    rw [h.made] at he
    cases he

/-- The map records what landed, what was refused is offered again, and what commits
were imported as is found to be them. -/
structure Bridge.Records (s : Bridge) : Prop where
  landed : ∀ c r, s.revisionOfCommit c = some r → Reaches s.store s.head r ∧
    ∃ rev, (get Revision r).value s.store = .ok rev ∧ s.commitOf r rev = some c
  offered : ∀ w ∈ s.waiting, ∃ commits, s.offered w.1 = some commits ∧ w.2 ∈ commits
  named : ∀ e ∈ s.made, ∃ rev, (get Revision e.1).value s.store = .ok rev ∧
    s.commitOf e.1 rev = some e.2

/-- In every run whose steps all meet the condition, the map is right. -/
theorem runs_record (hstart : s.Start)
    (hrun : ReflTransGen (fun s s' => ∃ e, s.Step e s' ∧ s.Meets e) s s') : s'.Records := by
  have hkept : Bridged s' := by
    induction hrun with
    | refl => exact hstart.kept
    | tail _ hstep ih =>
        obtain ⟨e, hstep, hmeets⟩ := hstep
        exact ih.step hstep hmeets
  exact ⟨hkept.mapped, fun w hw => hkept.offered hw, hkept.made⟩

end Steps

section Samples

def bridgeRoot : Revision := sampleRevision (.splat 64) "base" (.splat 5) []

def sampleCommit : CommitId := ⟨List.replicate 40 'a', by decide, by decide⟩

def sampleNode (message : String) : Node CommitId Content :=
  ⟨sampleCommit, [], ⟨message, "dev <dev@local>"⟩⟩

def sampleArrival : Arrival := ⟨.splat 65, none, .splat 6, none, "Fix the lane", .splat 1, 0⟩

/-- What the commit is imported as, on the first revision. -/
def arrived (message : String) : Revision := imported (sampleNode message) (.splat 0) sampleArrival

/-- A message that was exported once: it says where the commit came from. -/
def carriedMessage : String :=
  "Imported from git commit bbbbbbbbbbbbbbbbbbbbbbbbbbbbbbbbbbbbbbbb by dev <dev@local>."

def bridgeTable : List Object :=
  [.revision bridgeRoot, .revision (arrived ""), .revision (arrived carriedMessage)]

local instance bridgeHash : Crypto := .ofTable bridgeTable

/-- One revision, and one commit on a branch. -/
def sampleBridge (message : String) : Bridge where
  store := [.revision bridgeRoot]
  free := collisionFree_ofTable (by decide) (by decide +kernel)
  head := .splat 0
  graph := [sampleNode message]
  grown := ⟨List.not_mem_nil, List.forall_mem_nil _, trivial⟩
  branches := (∅ : OrdMap String CommitId).insert "main" sampleCommit
  revs := []
  commits := []
  waiting := []
  made := []

private theorem chained_sample (message : String) :
    Chained (sampleBridge message) [(.splat 0, bridgeRoot)] where
  value := by
    have hget : (get Revision (.splat 0)).value [.revision bridgeRoot] = .ok bridgeRoot := by
      decide +kernel
    exact trunkFrom_root hget rfl
  nodup := by decide
  graph e he c hc := by
    cases List.mem_singleton.mp he
    cases hc

private theorem start_sample (message : String) : (sampleBridge message).Start where
  revs := rfl
  commits := rfl
  waiting := rfl
  made := rfl
  chain := ⟨_, chained_sample message⟩
  tips b tip htip := by
    rw [sampleBridge, OrdMap.get?_insert] at htip
    split_ifs at htip
    · cases htip
      exact List.mem_cons_self
    · cases htip

private theorem listed_sample (message : String) :
    (sampleBridge message).listed "main" = some [sampleCommit] := by
  have htip : (sampleBridge message).branches.get? "main" = some sampleCommit := rfl
  rw [(chained_sample message).listed_eq htip]
  rfl

private theorem arrives_sample (message : String)
    (hid : revisionId (arrived message) ≠ .splat 0) :
    (sampleBridge message).Arrives [.revision bridgeRoot, .revision (arrived message)]
      (sampleNode message) (arrived message) where
  mem := List.mem_cons_self
  new := rfl
  imported := ⟨sampleArrival, rfl⟩
  puts := {
    sub := List.cons_subset_cons _ (List.nil_subset _)
    mem := List.mem_cons_of_mem _ List.mem_cons_self
    parent := rfl
    fresh := fun hreaches => by
      rcases hreaches.cases_head with heq | ⟨_, hnext, _⟩
      · exact hid heq.symm
      · cases hnext }

/-- A commit whose message names another one is refused: what it was imported as is
found to be the other one. -/
theorem imported_misnamed : ¬ ∀ s s' : Bridge, s.Start →
    ReflTransGen (fun s s' => ∃ e, s.Step e s') s s' → s'.Records := by
  intro h
  have harrives := arrives_sample carriedMessage (by decide +kernel)
  have himports : Imports "main" false (sampleBridge carriedMessage) [sampleCommit] _ :=
    .refused (collisionFree_ofTable (by decide) (by decide +kernel)) harrives
  have hstep := Bridge.Step.imports (listed_sample carriedMessage) himports
  obtain ⟨rev, hget, hcommit⟩ :=
    (h _ _ (start_sample carriedMessage) (.single ⟨_, hstep⟩)).named _ List.mem_cons_self
  have hthis : (get Revision (revisionId (arrived carriedMessage))).value
      [.revision bridgeRoot, .revision (arrived carriedMessage)] = .ok (arrived carriedMessage) := by
    decide +kernel
  cases hthis.symm.trans hget
  have hother : (arrived carriedMessage).body.bind namedCommit ≠ some sampleCommit := by
    decide +kernel
  exact hother hcommit

/-- The first bridge after an import as history. -/
def sampleImported : Bridge :=
  ((sampleBridge "").take [.revision bridgeRoot, .revision (arrived "")]
    (collisionFree_ofTable (by decide) (by decide +kernel)) sampleCommit (arrived "")
    (arrived "")).remember (revisionId (arrived "")) sampleCommit

theorem runs_record_import : sampleImported.Records := by
  have harrives := arrives_sample "" (by decide +kernel)
  have himports : Imports "main" true (sampleBridge "") [sampleCommit] sampleImported :=
    .landed (n := sampleNode "") _ ⟨harrives, ⟨.splat 6, 0, rfl⟩, harrives.puts⟩ .done
  have hstep : (sampleBridge "").Step (.imports "main" [sampleCommit]) sampleImported :=
    .imports (listed_sample "") himports
  refine runs_record (start_sample "") (.single ⟨_, hstep, fun n hn _ => ?_⟩)
  cases List.mem_singleton.mp hn
  exact fun hfound => absurd (by decide) hfound

end Samples

end Tessra.Daemon
