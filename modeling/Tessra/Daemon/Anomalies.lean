import Tessra.Data.Window
import Tessra.Oplog.StandardEdit

namespace Tessra.Daemon.Anomalies

open Tessra.Core Tessra.Data Tessra.Oplog.Standard

/-! The anomalies that are charged to agents, and what they come to. -/

section Model

structure AnomalyState where
  score : ℕ
  events : List (ℤ × String)
  throttledUntil : ℤ
  throttles : ℕ
  /-- Keys already charged through `recordOnce`. -/
  charged : List String
deriving DecidableEq

def AnomalyState.new : AnomalyState := ⟨0, [], 0, 0, []⟩

/-- The file of each agent. -/
abbrev States := OrdMap EntityId AnomalyState

def load (s : States) (agent : EntityId) : AnomalyState := (s.get? agent).getD .new

abbrev Config := OrdMap String Value

def configU64 (config : Config) (key : String) (default : ℕ) : ℕ :=
  match config.get? key with
  | some (.integer i) => i.toNat
  | some (.text t) => (parseUsize t).getD default
  | _ => default

def throttleAt (config : Config) : ℕ := configU64 config "anomaly_throttle" 3 % 2 ^ 32

def revokeAt (config : Config) : ℕ := configU64 config "anomaly_revoke" 6 % 2 ^ 32

def cooldown (config : Config) : ℤ := asI64 (configU64 config "anomaly_cooldown_s" 60)

/-- The last three events, the latest first. -/
def lastEvents (s : AnomalyState) : String :=
  "; ".intercalate ((s.events.reverse.take 3).map Prod.snd)

/-- Refuse a mutation while the session's agent is throttled. -/
def check (s : States) (sessionAgent : EntityId → Option EntityId) (principal : EntityId)
    (now : ℤ) : Except Error Unit :=
  match sessionAgent principal with
  | none => return
  | some agent =>
      let a := load s agent
      if now < a.throttledUntil then
        let left := (a.throttledUntil - now).tdiv 1000000000
        let last := lastEvents a
        let wait := "wait, then stay inside your claims and write scope"
        throw (.verb "THROTTLED" s!"throttled for {left} s after anomalies ({last}); {wait}")
      else return

inductive Verdict
  | scored
  | throttled (until_ : ℤ)
  | revoked
deriving DecidableEq

def verdictOf (config : Config) (score : ℕ) (now : ℤ) : Verdict :=
  if revokeAt config ≤ score then .revoked
  else if throttleAt config ≤ score then .throttled (now + cooldown config * 1000000000)
  else .scored

/-- The time until which a verdict throttles. -/
def Verdict.until? : Verdict → Option ℤ
  | .throttled u => some u
  | _ => none

/-- An anomaly as it was charged: to whom, for what, under which key, and with what verdict. -/
structure Charge where
  agent : EntityId
  what : String
  points : ℕ
  key : Option String
  config : Config
  time : ℤ
  verdict : Verdict

/-- Record an anomaly for an agent: at one time the event, at a second the verdict. None
where the score overflows, which panics or wraps by the build. -/
def recordFor (s : States) (agent : EntityId) (what : String) (points : ℕ) (config : Config)
    (time now : ℤ) : Option (States × Verdict) :=
  let a := load s agent
  let score := a.score + points
  if 2 ^ 32 ≤ score then none
  else
    let verdict := verdictOf config score now
    let a := { a with score, events := pushWithin 50 a.events (time, what) }
    let a := match verdict with
      | .throttled u => { a with throttledUntil := u, throttles := a.throttles + 1 }
      | _ => a
    some (s.insert agent a, verdict)

/-- Record an anomaly at most once per key.  No verdict if the key was charged. -/
def recordOnceFor (s : States) (agent : EntityId) (what : String) (points : ℕ) (key : String)
    (config : Config) (time now : ℤ) : Option (States × Option Verdict) :=
  let a := load s agent
  if a.charged.any (· = key) then some (s, none)
  else
    let s := s.insert agent { a with charged := pushWithin 200 a.charged key }
    (recordFor s agent what points config time now).map fun r => (r.1, some r.2)

/-- What a session's call of a mutation does first: while its agent is throttled it is
refused, and trying is a signal itself. -/
def gate (s : States) (sessionAgent : EntityId → Option EntityId) (principal : EntityId)
    (verb : String) (config : Config) (asked time now : ℤ) :
    Option (States × Except Error Unit) :=
  match check s sessionAgent principal asked, sessionAgent principal with
  | .error e, some agent =>
      (recordFor s agent s!"{verb} while throttled" 1 config time now).map fun r =>
        if r.2 = .revoked then
          (r.1, .error (.verb "REVOKED"
            "revoked by the risk monitor after repeated anomalies; unlanded work unwound"))
        else (r.1, .error e)
  | _, _ => some (s, .ok ())

end Model

section Runs

/-- Runs of the anomaly path, with the charges that were made, the latest last.  Principals
without an agent are charged nothing. -/
inductive Run : States → List Charge → Prop
  | start : Run ∅ []
  | record {s s' : States} {log : List Charge} (h : Run s log) {agent : EntityId}
      {what : String} {points : ℕ} {config : Config} {time now : ℤ} {verdict : Verdict}
      (hrecord : recordFor s agent what points config time now = some (s', verdict)) :
      Run s' (log ++ [⟨agent, what, points, none, config, time, verdict⟩])
  | once {s s' : States} {log : List Charge} (h : Run s log) {agent : EntityId}
      {what key : String} {points : ℕ} {config : Config} {time now : ℤ} {verdict : Verdict}
      (hrecord : recordOnceFor s agent what points key config time now = some (s', some verdict)) :
      Run s' (log ++ [⟨agent, what, points, some key, config, time, verdict⟩])
  | again {s s' : States} {log : List Charge} (h : Run s log) {agent : EntityId}
      {what key : String} {points : ℕ} {config : Config} {time now : ℤ}
      (hrecord : recordOnceFor s agent what points key config time now = some (s', none)) :
      Run s' log

variable {s s' : States} {log : List Charge} {agent : EntityId}

/-- The charges to one agent. -/
def mine (log : List Charge) (agent : EntityId) : List Charge := log.filter fun c => c.agent = agent

def untils (cs : List Charge) : List ℤ := cs.filterMap fun c => c.verdict.until?

/-- What an agent's file says of the charges to it. -/
structure Tallies (a : AnomalyState) (cs : List Charge) : Prop where
  score : a.score = (cs.map Charge.points).sum
  events : a.events = window 50 (cs.map fun c => (c.time, c.what))
  charged : a.charged = window 200 (cs.filterMap Charge.key)
  throttles : a.throttles = (untils cs).length
  throttledUntil : a.throttledUntil = ((untils cs).getLast?).getD 0

theorem tallies_new : Tallies .new [] := ⟨rfl, rfl, rfl, rfl, rfl⟩

theorem load_insert (s : States) (agent other : EntityId) (a : AnomalyState) :
    load (s.insert agent a) other = if agent = other then a else load s other := by
  rw [load, OrdMap.get?_insert]
  split_ifs <;> rfl

/-- An agent's file once an anomaly was recorded in it. -/
def AnomalyState.after (a : AnomalyState) (what : String) (points : ℕ) (time : ℤ)
    (verdict : Verdict) : AnomalyState where
  score := a.score + points
  events := pushWithin 50 a.events (time, what)
  throttledUntil := verdict.until?.getD a.throttledUntil
  throttles := a.throttles + verdict.until?.toList.length
  charged := a.charged

theorem recordFor_some {what : String} {points : ℕ} {config : Config} {time now : ℤ}
    {verdict : Verdict}
    (h : recordFor s agent what points config time now = some (s', verdict)) :
    verdict = verdictOf config ((load s agent).score + points) now ∧
      s' = s.insert agent ((load s agent).after what points time verdict) := by
  rw [recordFor] at h
  split_ifs at h
  cases h
  refine ⟨rfl, ?_⟩
  cases verdictOf config ((load s agent).score + points) now <;> rfl

theorem Tallies.after {a : AnomalyState} {cs : List Charge} (h : Tallies a cs) (c : Charge)
    {charged : List String} (hcharged : charged = window 200 ((cs ++ [c]).filterMap Charge.key)) :
    Tallies { a.after c.what c.points c.time c.verdict with charged } (cs ++ [c]) where
  score := by
    change a.score + c.points = _
    rw [h.score, List.map_append, List.sum_append, List.map_singleton, List.sum_singleton]
  events := by
    change pushWithin 50 a.events (c.time, c.what) = _
    rw [h.events, pushWithin_window, List.map_append, List.map_singleton]
  charged := hcharged
  throttles := by
    change a.throttles + c.verdict.until?.toList.length = _
    rw [h.throttles, untils, untils, List.filterMap_append, List.length_append]
    cases hu : c.verdict.until? <;> simp [hu]
  throttledUntil := by
    change c.verdict.until?.getD a.throttledUntil = _
    rw [h.throttledUntil, untils, untils, List.filterMap_append]
    cases hu : c.verdict.until? <;> simp [hu]

/-- A charge's verdict is that on all the points of its agent up to it. -/
def Judged (log : List Charge) : Prop :=
  ∀ pre c post, log = pre ++ c :: post → ∃ now,
    c.verdict = verdictOf c.config (((mine (pre ++ [c]) c.agent).map Charge.points).sum) now

def Verdict.rank : Verdict → ℕ
  | .scored => 0
  | .throttled _ => 1
  | .revoked => 2

/-- With the same configuration, more points are no lighter a verdict. -/
theorem rank_mono (config : Config) {score score' : ℕ} (h : score ≤ score') (now now' : ℤ) :
    (verdictOf config score now).rank ≤ (verdictOf config score' now').rank := by
  unfold verdictOf
  split_ifs <;> first
    | exact Nat.zero_le _
    | exact le_rfl
    | exact Nat.le_succ _
    | omega

/-- What holds over a run: of each agent's file, of the verdicts, and of the keys. -/
structure Kept (s : States) (log : List Charge) : Prop where
  tallies : ∀ agent, Tallies (load s agent) (mine log agent)
  judged : Judged log
  spaced : ∀ agent, Spaced 200 ((mine log agent).filterMap Charge.key)

theorem mine_concat_self (log : List Charge) (c : Charge) :
    mine (log ++ [c]) c.agent = mine log c.agent ++ [c] := by
  simp [mine]

theorem mine_concat_of_ne (log : List Charge) {c : Charge} (h : c.agent ≠ agent) :
    mine (log ++ [c]) agent = mine log agent := by
  simp [mine, h]

/-- Whichever way a charge is made, what it leaves in the agent's file is its tally. -/
theorem Kept.charge (h : Kept s log) {c : Charge}
    (hverdict : ∃ now, c.verdict = verdictOf c.config ((load s c.agent).score + c.points) now)
    (hkey : ∀ k ∈ c.key, k ∉ (load s c.agent).charged)
    (hs' : ∀ agent, load s' agent = if c.agent = agent then
      { (load s agent).after c.what c.points c.time c.verdict with
        charged := c.key.elim (load s agent).charged (pushWithin 200 (load s agent).charged) }
      else load s agent) : Kept s' (log ++ [c]) where
  tallies agent := by
    rw [hs']
    split_ifs with hagent
    · subst hagent
      have hcharged : c.key.elim (load s c.agent).charged
          (pushWithin 200 (load s c.agent).charged) =
            window 200 ((mine log c.agent ++ [c]).filterMap Charge.key) := by
        rw [(h.tallies c.agent).charged, List.filterMap_append]
        cases hk : c.key with
        | none => simp [hk]
        | some k => simp [hk, pushWithin_window]
      rw [mine_concat_self]
      exact (h.tallies c.agent).after c hcharged
    · rw [mine_concat_of_ne log hagent]
      exact h.tallies agent
  judged := by
    intro pre c' post hlog
    rcases List.eq_nil_or_concat post with rfl | ⟨post, last, rfl⟩
    · obtain ⟨rfl, hc⟩ := List.append_inj' hlog rfl
      obtain rfl := List.singleton_inj.mp hc
      obtain ⟨now, hverdict⟩ := hverdict
      refine ⟨now, ?_⟩
      rw [hverdict, (h.tallies c.agent).score, mine_concat_self, List.map_append,
        List.sum_append, List.map_singleton, List.sum_singleton]
    · have hsplit : log ++ [c] = (pre ++ c' :: post) ++ [last] := by
        rw [hlog]
        simp
      exact h.judged pre c' post (List.append_inj' hsplit rfl).1
  spaced agent := by
    by_cases hagent : c.agent = agent
    · subst hagent
      rw [mine_concat_self, List.filterMap_append]
      cases hk : c.key with
      | none => simpa [hk] using h.spaced c.agent
      | some k =>
          have hnew := hkey k hk
          rw [(h.tallies c.agent).charged] at hnew
          simpa [hk] using (h.spaced c.agent).concat hnew
    · rw [mine_concat_of_ne log hagent]
      exact h.spaced agent

theorem Run.kept (h : Run s log) : Kept s log := by
  induction h with
  | start =>
      refine ⟨fun _ => tallies_new, ?_, fun _ => spaced_nil 200⟩
      intro pre c post hlog
      simp at hlog
  | @record s s' log _ agent what points config time now verdict hrecord ih =>
      obtain ⟨hverdict, rfl⟩ := recordFor_some hrecord
      refine ih.charge ⟨now, hverdict⟩ (by simp) fun other => ?_
      rw [load_insert]
      split_ifs with hsame
      · subst hsame
        rfl
      · rfl
  | @once s s' log _ agent what key points config time now verdict hrecord ih =>
      rw [recordOnceFor] at hrecord
      split_ifs at hrecord with hany
      · cases hrecord
      obtain ⟨⟨s'', verdict'⟩, hfor, heq⟩ := Option.map_eq_some_iff.mp hrecord
      cases heq
      obtain ⟨hverdict, rfl⟩ := recordFor_some hfor
      rw [load_insert, if_pos rfl] at hverdict
      refine ih.charge ⟨now, hverdict⟩ ?_ fun other => ?_
      · intro k hk hmem
        obtain rfl := Option.some.inj hk
        exact hany (List.any_eq_true.mpr ⟨key, hmem, decide_eq_true rfl⟩)
      · rw [load_insert, load_insert, if_pos rfl]
        split_ifs with hsame
        · subst hsame
          rfl
        · exact (load_insert _ _ _ _).trans (if_neg hsame)
  | again _ hrecord ih =>
      rw [recordOnceFor] at hrecord
      split_ifs at hrecord
      · cases hrecord
        exact ih
      · obtain ⟨_, _, heq⟩ := Option.map_eq_some_iff.mp hrecord
        cases heq

theorem mine_append (log log' : List Charge) (agent : EntityId) :
    mine (log ++ log') agent = mine log agent ++ mine log' agent := List.filter_append _ _

theorem Judged.front {c : Charge} (h : Judged (log ++ [c])) : Judged log := by
  intro pre c' post hlog
  exact h pre c' (post ++ [c]) (by rw [hlog, List.append_assoc, List.cons_append])

/-- An agent's verdicts get no lighter, as long as the configuration stays. -/
theorem Judged.pairwise (h : Judged log) : log.Pairwise fun x y =>
    x.agent = y.agent → x.config = y.config → x.verdict.rank ≤ y.verdict.rank := by
  induction log using List.reverseRecOn with
  | nil => exact .nil
  | append_singleton log c ih =>
      rw [List.pairwise_append]
      refine ⟨ih h.front, List.pairwise_singleton _ _, ?_⟩
      rintro x hx y hy hagent hconfig
      obtain rfl := List.mem_singleton.mp hy
      obtain ⟨pre, post, rfl⟩ := List.append_of_mem hx
      obtain ⟨now, hverdict⟩ := h.front pre x post rfl
      obtain ⟨now', hverdict'⟩ := h (pre ++ x :: post) y [] rfl
      rw [hverdict, hverdict', hconfig]
      refine rank_mono _ ?_ now now'
      have hsplit : pre ++ x :: post ++ [y] = (pre ++ [x]) ++ (post ++ [y]) := by simp
      rw [hagent, hsplit, mine_append _ (post ++ [y]), List.map_append, List.sum_append]
      exact Nat.le_add_right _ _

/-- A mutation goes through exactly from the end of its agent's last throttling on. -/
theorem Tallies.gate {cs : List Charge} (h : Tallies (load s agent) cs)
    {sessionAgent : EntityId → Option EntityId} {principal : EntityId}
    (hagent : sessionAgent principal = some agent) {asked : ℤ} (hasked : 0 ≤ asked)
    (verb : String) (config : Config) (time now : ℤ) :
    gate s sessionAgent principal verb config asked time now = some (s, .ok ()) ↔
      ∀ u ∈ (untils cs).getLast?, u ≤ asked := by
  have huntil : asked < (load s agent).throttledUntil ↔
      ¬ ∀ u ∈ (untils cs).getLast?, u ≤ asked := by
    rw [h.throttledUntil]
    cases hlast : (untils cs).getLast? with
    | none => simpa using hasked
    | some u => simp
  rw [Anomalies.gate, check, hagent]
  by_cases hthrottled : asked < (load s agent).throttledUntil
  · simp only [hthrottled, if_true]
    refine iff_of_false (fun heq => ?_) (huntil.mp hthrottled)
    obtain ⟨r, _, heq⟩ := Option.map_eq_some_iff.mp heq
    split_ifs at heq <;> cases heq
  · simp only [hthrottled, if_false]
    exact iff_of_true rfl (not_not.mp (mt huntil.mpr hthrottled))

end Runs

section Samples

/-! A weakened test that is charged, and charged again. -/

def refused : String := "landing refused: weakened tests"

def chargedOnce : States := OrdMap.insert ∅ (.splat 1) ⟨2, [(7, refused)], 0, 0, ["rev"]⟩

def theCharge : Charge := ⟨.splat 1, refused, 2, some "rev", ∅, 7, .scored⟩

theorem chargedRun : Run chargedOnce [theCharge] := by
  have hfirst : recordOnceFor ∅ (.splat 1) refused 2 "rev" ∅ 7 7 =
      some (chargedOnce, some .scored) := by decide
  have hagain : recordOnceFor chargedOnce (.splat 1) refused 2 "rev" ∅ 9 9 =
      some (chargedOnce, none) := by decide
  exact .again (.once .start hfirst) hagain

end Samples

end Tessra.Daemon.Anomalies
