/-
# The logs that a supervisor follows

`process_log` reads the state of the key, changes it and puts it back, also where it
raises in between.  It raises for a key without a state, where `initial_state` is
given an argument; for the notice of a job that was received but has not started,
where the delay is taken from a start that is `None`; and for an information that
reports no success and has no message.  A run is followed throughout exactly when
none of its logs is of these kinds (`followed_iff`).
-/
import Ptolemy.SupervisorTimes

namespace PollerSupervisor

open Run
open Scheduler (Draw)

variable (cfg : Config) (readFile : String → Option String)

/-! ## What a log raises -/

/-- The state of the job is one that supervisors know. -/
def Log.Known (entry : Log) : Prop :=
  ∃ t, entry.state = some t ∧ ∀ name, t ≠ .other name

/-- A log of a known state is processed without raising, and a state is committed. -/
def Followed (s : Supervisor) : Event → Prop
  | .log now entry => entry.Known → (processLog cfg now entry s).2 = none
      ∧ ((processLog cfg now entry s).1.state (driverKey entry.device entry.spec)).isSome
  | .request _ _ _ => True

/-- The key of the log has a state. A job that is received has started before; the texts of an
information all report success, or it has a message. -/
def Followable (s : Supervisor) : Event → Prop
  | .log _ entry => entry.Known → ∃ state,
      s.state (driverKey entry.device entry.spec) = some state
      ∧ (entry.state = some .received → state.started ≠ none)
      ∧ (entry.state = some .info → entry.message = none →
        ∀ d ∈ entry.data, (successDriver d).isSome)
  | .request _ _ _ => True

theorem infoTexts_snd {spec : String} {message : Option String} {data : List String}
    {state : PollState} : (infoTexts cfg spec message data state).2 = none
      ↔ (message = none → ∀ d ∈ data, (successDriver d).isSome) := by
  induction data generalizing state with
  | nil => simp [infoTexts]
  | cons d ds ih =>
    rw [infoTexts.eq_def]
    cases hd : successDriver d with
    | some driver => simp only [ih, List.forall_mem_cons, hd, Option.isSome_some, true_and]
    | none =>
      cases message with
      | none => simp [hd]
      | some m => simp only [hd, ih, reduceCtorEq, false_implies]

/-- What a log of a known state raises, by the state that it reads. -/
theorem logUpdate_snd {now : ℚ} {spec : String} {t : TaskState} {data : List String}
    {message : Option String} {state : PollState} (ht : ∀ name, t ≠ .other name) :
    (logUpdate cfg now spec t data message state).2 = none
      ↔ (t = .received → state.recvd ≠ none → state.started ≠ none)
        ∧ (t = .info → message = none → ∀ d ∈ data, (successDriver d).isSome) := by
  cases t with
  | received =>
    simp only [logUpdate, reduceCtorEq, false_implies, and_true, true_implies]
    split_ifs with h
    · rw [false_iff]
      exact fun hstarted => hstarted h.1 h.2
    · simp only [true_iff]
      exact fun hrecvd hstarted => h ⟨hrecvd, hstarted⟩
  | processing => simp [logUpdate]
  | complete => simp [logUpdate]
  | warning => simp [logUpdate]
  | errored => simp [logUpdate]
  | info => simp only [logUpdate, infoTexts_snd, reduceCtorEq, false_implies, true_and, true_implies]
  | other name => exact absurd rfl (ht name)

/-! ## Along runs -/

/-- Every state in memcache has the time of a request. -/
def Received (s : Supervisor) : Prop := ∀ k state, s.state k = some state → state.recvd ≠ none

/-- The first request of a key is noted. -/
theorem check_initialState (now : ℚ) (frequency : Option ℚ) :
    (check cfg now frequency initialState).2.1 = true := rfl

theorem Received.step {s : Supervisor} (h : Received s) (e : Event) :
    Received (step cfg readFile s e) := by
  intro k state hstate
  rcases state_step_cases cfg readFile s e k with ⟨hsame, -⟩
    | ⟨now, draw, job, device, spec, -, -, -, hnew⟩
    | ⟨now, entry, t, state', -, -, -, hstate', hnew⟩
  · exact h k state (hsame.symm.trans hstate)
  · obtain rfl := Option.some.inj (hnew.symm.trans hstate)
    rw [requestUpdate_recvd]
    split_ifs with hnoted
    · exact Option.some_ne_none now
    · cases hread : s.state k with
      | none =>
        rw [hread] at hnoted
        exact absurd (check_initialState cfg now job.frequency) hnoted
      | some read => exact h k read hread
  · obtain rfl := Option.some.inj (hnew.symm.trans hstate)
    rw [(logUpdate_kept cfg).1]
    exact h k state' hstate'

/-- One event: it is followed exactly if it can be. -/
theorem followed_iff_followable {s : Supervisor} (h : Received s) (e : Event) :
    Followed cfg s e ↔ Followable s e := by
  cases e with
  | request now draw job => exact Iff.rfl
  | log now entry =>
    apply imp_congr_right
    rintro ⟨t, ht, hknown⟩
    have hlookup : s.memcache.lookup (memcacheKey (driverKey entry.device entry.spec))
        = s.state (driverKey entry.device entry.spec) := rfl
    simp only [processLog, ht, hlookup]
    cases hstate : s.state (driverKey entry.device entry.spec) with
    | none => simp
    | some state =>
      have hrecvd := h _ state hstate
      have hcommit : ((⟨AList.insert (memcacheKey (driverKey entry.device entry.spec))
          (logUpdate cfg now entry.spec t entry.data entry.message state).1 s.memcache,
          s.optionsCache⟩ : Supervisor).state (driverKey entry.device entry.spec)).isSome := by
        rw [state_of_insert rfl, Option.isSome_some]
      simp only [logUpdate_snd cfg hknown, hcommit, and_true, Option.some_inj, exists_eq_left',
        hrecvd, ne_eq, not_false_eq_true, true_implies]

/-- **A supervisor follows every log of a known state in a run exactly if each of them can be
followed in the state that it meets**: its key has a state; a job that is reported as received
has started; an information reports successes only, or has a message. -/
theorem followed_iff (es : List Event) :
    Along (step cfg readFile) (Followed cfg) start es
      ↔ Along (step cfg readFile) Followable start es := by
  have hstart : Received start := fun k state h => by cases h
  exact along_congr (I := Received) (fun s e h => h.step cfg readFile e) hstart
    (fun e _ s h => followed_iff_followable cfg h e)

/-- The worker takes the first job of a device: it says so before it starts. -/
theorem not_followed_received :
    ¬ Along (step portStats (fun _ => none)) (Followed portStats) start
      [requestAt 0, logAt 1 .received []] := by
  intro h
  have hknown : (⟨"rtr-core1", "port_stats", some .received, [], none⟩ : Log).Known :=
    ⟨.received, rfl, fun _ h => by cases h⟩
  have hsplit : [requestAt 0, logAt 1 .received []] = [requestAt 0] ++ logAt 1 .received [] :: [] :=
    rfl
  have hlog := (h.at hsplit hknown).1
  revert hlog
  decide

end PollerSupervisor
