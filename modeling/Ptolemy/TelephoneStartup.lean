/-
# The start of the telephone worker

When the worker has not run for a while, the first switch that is polled would make it notify
people of every telephone that it has not seen since.  `setup` therefore compares the time of the
last run, which it finds in redis, with that of the start, and `post_bulk_process` asks whether
disconnections may be notified again.

Both compare values of different types, which never come out the way that is meant: no start
sets the time until which nothing is notified, and no time that were set would be respected.
`silent_iff` says in which runs nothing is notified all the same.
-/
import Ptolemy.Telephones

namespace TelephoneWorker

/-! ## Comparisons -/

/-- What the comparisons are about: redis returns texts, and times are no numbers. -/
inductive Operand : Type where
  | none
  | number (q : ℚ)
  | text (s : String)
  | datetime (t : ℚ)
  deriving DecidableEq

/-- `a < b`: `None` is less than numbers, and these are less than texts; a time is compared with
times only. -/
def Operand.lt : Operand → Operand → Except Exn Bool
  | .datetime a, .datetime b => .ok (a < b)
  | .datetime _, _ => .error (.typeError "can't compare datetime.datetime")
  | _, .datetime _ => .error (.typeError "can't compare datetime.datetime")
  | .none, .none => .ok false
  | .none, _ => .ok true
  | _, .none => .ok false
  | .number a, .number b => .ok (a < b)
  | .number _, .text _ => .ok true
  | .text _, .number _ => .ok false
  | .text a, .text b => .ok (a < b)

/-- `a <= b`. -/
def Operand.le (a b : Operand) : Except Exn Bool := (lt a b).map (fun c => c || a = b)

/-! ## The guard -/

/-- The time until which `setup` forbids notifications, given what redis returns for the last run
and the time of the start. -/
def setup (last_run : Option String) (n : ℚ) : Operand :=
  match last_run with
  | none => .none
  | some last_run =>
    if last_run ≠ "" ∧ Operand.lt (.text last_run) (.number (n - delta)) = .ok true then
      .datetime (n + delta)
    else .none

/-- `ok`: what the comparison raises is caught, so a time forbids no more than `None` does. -/
def allowed (dont_alert_until : Operand) (now : ℚ) : Bool :=
  Operand.le (.number now) dont_alert_until ≠ .ok true

/-- A call of the worker, and the time at which it is made. -/
structure Tick : Type where
  now : ℚ
  event : Event

/-- `post_bulk_process` behind the guard, and the other calls as they are. -/
def guardedCall (dont_alert_until : Operand) (s : State) (t : Tick) : State × List Note :=
  match t.event with
  | .post_bulk_process time =>
    if s.found > 0 ∧ allowed dont_alert_until t.now = false then (s, [])
    else post_bulk_process s time
  | e => call s e

def guardedStep (dont_alert_until : Operand) (s : State) (t : Tick) : State :=
  { (guardedCall dont_alert_until s t).1 with
    history := t.event :: s.history, sent := s.sent ++ (guardedCall dont_alert_until s t).2 }

/-- A text is not less than a number: nothing is ever forbidden. -/
theorem setup_eq (last_run : Option String) (n : ℚ) : setup last_run n = .none := by
  cases last_run with
  | none => rfl
  | some last_run =>
    have hlt : Operand.lt (.text last_run) (.number (n - delta)) = .ok false := rfl
    unfold setup
    dsimp only
    rw [hlt]
    exact if_neg (fun h => absurd h.2 (by simp))

/-- No number is as small as `None`. -/
theorem allowed_none (now : ℚ) : allowed .none now = true := rfl

/-- **The guard has no effect.** -/
theorem guardedCall_setup (last_run : Option String) (n : ℚ) (s : State) (t : Tick) :
    guardedCall (setup last_run n) s t = call s t.event := by
  rw [setup_eq]
  unfold guardedCall
  cases t.event with
  | post_bulk_process time => exact if_neg (fun h => absurd h.2 (by rw [allowed_none]; simp))
  | pre_bulk_process => rfl
  | save time context data => rfl

theorem guardedStep_setup (last_run : Option String) (n : ℚ) (s : State) (t : Tick) :
    guardedStep (setup last_run n) s t = step s t.event := by
  unfold guardedStep
  rw [guardedCall_setup]
  rfl

theorem run_guardedStep (last_run : Option String) (n : ℚ) (s : State) (ts : List Tick) :
    Run.run (guardedStep (setup last_run n)) s ts = Run.run step s (ts.map Tick.event) := by
  induction ts generalizing s with
  | nil => rfl
  | cons t ts ih => rw [List.map_cons, Run.run_cons, Run.run_cons, guardedStep_setup, ih]

/-! ## After a start -/

/-- Not later than one expiry period after the start. -/
def InWindow (n : ℚ) (t : Tick) : Prop := n ≤ t.now ∧ t.now ≤ n + delta

/-- No disconnection is notified within that period. -/
def Silent (last_run : Option String) (n : ℚ) (s : State) (t : Tick) : Prop :=
  InWindow n t → ∀ note ∈ (guardedCall (setup last_run n) s t).2, note.isDisconnected = false

/-- Where a telephone was found in a message of that period, no entry is out of date. -/
def NothingOutdated (n : ℚ) (s : State) (t : Tick) : Prop :=
  InWindow n t → ∀ time, t.event = .post_bulk_process time →
    s.found = 0 ∨ outdated s.zset time = []

/-- A sighting is no disconnection. -/
theorem isDisconnected_save {s : State} {time : ℚ} {context : PeerContext} {data : Peer}
    {note : Note} (h : note ∈ (save s time context data).2) : note.isDisconnected = false := by
  unfold save at h
  split at h
  · cases h
  · simp only at h
    split at h
    · cases h
    · unfold notice at h
      split at h
      · split_ifs at h
        · rw [List.mem_singleton.mp h]
          rfl
        · cases h
      · rw [List.mem_singleton.mp h]
        rfl

/-- **One call** is silent just when it has nothing to notify. -/
theorem silent_iff_nothingOutdated (last_run : Option String) (n : ℚ) (s : State) (t : Tick) :
    Silent last_run n s t ↔ NothingOutdated n s t := by
  unfold Silent NothingOutdated
  refine imp_congr_right (fun _ => ?_)
  rw [guardedCall_setup]
  cases t.event with
  | pre_bulk_process => exact ⟨fun _ _ h => (by cases h), fun _ note h => (by cases h)⟩
  | save time context data =>
    exact ⟨fun _ _ h => (by cases h), fun _ note h => isDisconnected_save h⟩
  | post_bulk_process time =>
    show (∀ note ∈ (post_bulk_process s time).2, _) ↔ _
    constructor
    · intro h time' heq
      cases heq
      by_cases hfound : s.found = 0
      · exact Or.inl hfound
      · right
        by_contra hne
        obtain ⟨p, hp⟩ := List.exists_mem_of_ne_nil _ hne
        have hmem : Note.disconnected p.1 (s.keys.lookup p.1) (time - delta - p.2)
            ∈ (post_bulk_process s time).2 := by
          unfold post_bulk_process
          rw [if_pos (Nat.pos_of_ne_zero hfound)]
          exact List.mem_map_of_mem (f := fun p : String × ℤ =>
            Note.disconnected p.1 (s.keys.lookup p.1) (time - delta - p.2)) hp
        exact absurd (h _ hmem) (by simp [Note.isDisconnected])
    · intro h note hnote
      unfold post_bulk_process at hnote
      rcases h time rfl with hfound | hempty
      · rw [if_neg (by omega)] at hnote
        cases hnote
      · rw [hempty] at hnote
        split_ifs at hnote
        · cases hnote
        · cases hnote

/-- A pass of that period that has something to notify. -/
theorem not_silent_of_outdated {last_run : Option String} {n : ℚ} (s : State) (es : List Event)
    {now time : ℚ} (m : String) (score : ℤ) (hnow : InWindow n ⟨now, .post_bulk_process time⟩)
    (hfound : (Run.run step s es).found ≠ 0)
    (hmem : (m, score) ∈ outdated (Run.run step s es).zset time) :
    ¬ Run.Along (guardedStep (setup last_run n)) (Silent last_run n) s
      ((es ++ [Event.post_bulk_process time]).map (fun e => ⟨now, e⟩)) := by
  intro h
  rw [List.map_append] at h
  have hlast := h.at rfl
  have hevents : (es.map (fun e => (⟨now, e⟩ : Tick))).map Tick.event = es := by
    rw [List.map_map]
    exact List.map_id es
  rw [silent_iff_nothingOutdated, run_guardedStep, hevents] at hlast
  rcases hlast hnow time rfl with hzero | hempty
  · exact hfound hzero
  · rw [hempty] at hmem
    cases hmem

theorem delta_nonneg : (0 : ℚ) ≤ delta := by
  unfold delta
  norm_num

/-- A telephone was seen once, and another one is seen after it is out of date. -/
def flood : List Event := sight 0 "a" "Gi1/1" ++ sight 1300 "b" "Gi1/2"

/-- Right after any start there are messages that a disconnection is notified for. -/
theorem not_silent_flood (last_run : Option String) (n : ℚ) :
    ¬ Run.Along (guardedStep (setup last_run n)) (Silent last_run n) start
      (flood.map (fun e => ⟨n, e⟩)) := by
  refine not_silent_of_outdated start (sight 0 "a" "Gi1/1" ++ (sight 1300 "b" "Gi1/2").take 2)
    "a" 0 ⟨le_rfl, le_add_of_nonneg_right delta_nonneg⟩ (by decide +kernel) ?_
  exact mem_outdated.mpr ⟨by decide +kernel, by decide, le_rfl, by unfold delta; norm_num⟩

/-- **When a start is silent**: for every last run and every start, a run notifies no
disconnection within one expiry period just when it has none to notify; and there is a run
that has one. -/
theorem silent_iff (last_run : Option String) (n : ℚ) :
    (∀ s ts, Run.Along (guardedStep (setup last_run n)) (Silent last_run n) s ts
        ↔ Run.Along (guardedStep (setup last_run n)) (NothingOutdated n) s ts)
      ∧ ∃ ts, (∀ t ∈ ts, InWindow n t)
        ∧ ¬ Run.Along (guardedStep (setup last_run n)) (Silent last_run n) start ts := by
  refine ⟨fun s ts => Run.along_congr (I := fun _ => True) (fun _ _ _ => trivial) trivial
    (fun t _ s _ => silent_iff_nothingOutdated last_run n s t), _, fun t ht => ?_,
    not_silent_flood last_run n⟩
  obtain ⟨e, -, rfl⟩ := List.mem_map.mp ht
  exact ⟨le_rfl, le_add_of_nonneg_right delta_nonneg⟩

/-- What redis holds when the worker starts again: a telephone was last seen at 900. -/
def stale : State where
  zset := Dict.ofList [("a", 900)]
  keys := Dict.ofList [("a", ⟨"swh-b050", "Gi1/1"⟩)]

/-- The worker ran last at 1000, and starts at 10000: the first switch that reports another
telephone, a minute later, makes it notify that this one is gone. -/
theorem not_silent_stale :
    (1000 : ℚ) + delta < 10000
      ∧ ¬ Run.Along (guardedStep (setup (some "1000") 10000)) (Silent (some "1000") 10000) stale
        ((sight 10060 "b" "Gi1/2").map (fun e => ⟨10060, e⟩)) := by
  refine ⟨by unfold delta; norm_num, not_silent_of_outdated stale
    ((sight 10060 "b" "Gi1/2").take 2) "a" 900 ?_ (by decide +kernel) ?_⟩
  · constructor
    · show (10000 : ℚ) ≤ 10060
      norm_num
    · show (10060 : ℚ) ≤ 10000 + delta
      unfold delta
      norm_num
  · exact mem_outdated.mpr ⟨by decide +kernel, by decide, by decide, by unfold delta; norm_num⟩

end TelephoneWorker
