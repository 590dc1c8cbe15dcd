/-
# Schedulers that share their heartbeats

Every scheduler reads the heartbeats of all hosts from memcache, adds its own and puts
the whole of them back.  Nothing keeps another scheduler from putting its own heartbeats
there in between: reading and putting back are steps of their own here.

Beside the heartbeats that a scheduler has read, those are kept that others have put
into memcache for their own hosts since.  When it puts its heartbeats back, these are
the ones that can get lost.
-/
import Ptolemy.HeartbeatRing

namespace DistributedScheduleManager

variable {ω : Type} [DecidableEq ω] (host : ω → String)

/-! ## Getting and setting apart -/

/-- A scheduler between its two steps: the heartbeats that it has read, the time of its own, and the
heartbeats that others have set for their own hosts since. -/
structure Pending : Type where
  read : States
  t : ℚ
  since : List (String × ℚ) := []

/-- The heartbeats in memcache, and what the schedulers have read of them. -/
structure Shared (ω : Type) : Type where
  states : States
  pending : ω → Option Pending := fun _ => none

/-- A scheduler gets the heartbeats and reads its clock, or it sets the heartbeats. -/
inductive Move (ω : Type) : Type where
  | get (i : ω) (t : ℚ)
  | set (i : ω)

/-- What a scheduler sets. -/
def Pending.written (hostId : String) (p : Pending) : States := refreshed hostId p.t (some p.read)

/-- Another scheduler has set a heartbeat for its own host. -/
def Pending.note (hostId : String) (t : ℚ) (p : Pending) : Pending :=
  { p with since := (hostId, t) :: p.since }

def move (w : Shared ω) : Move ω → Shared ω
  | .get i t => { w with pending := Function.update w.pending i (some ⟨w.states, t, []⟩) }
  | .set i => match w.pending i with
    | none => w
    | some p =>
      ⟨p.written (host i),
        Function.update (fun j => (w.pending j).map (Pending.note (host i) p.t)) i none⟩

/-- **A scheduler alone**: the two steps, one after the other, put into memcache what `update_ring`
puts there. -/
theorem move_alone (w : Shared ω) (i : ω) {m : Manager} {c : Call} (hm : m.hostId = host i)
    (hgot : c.got = some w.states) (hdue : m.isDue c.n = true) :
    (updateRing m c).2 = some (Run.run (move host) w [.get i c.t, .set i]).states := by
  rw [updateRing_of_due hdue, hm, hgot]
  simp only [Run.run, List.foldl_cons, List.foldl_nil, move, Function.update_self]
  rfl

/-! ## What is kept -/

/-- Every heartbeat is still there, or a later one of the same host. -/
def Kept (before after : States) : Prop :=
  ∀ h t, before.lookup h = some t → ∃ t', after.lookup h = some t' ∧ t ≤ t'

/-- Between the two steps of a scheduler no other one has set a heartbeat of its host that is later
than the one read; and its own clock is not behind the heartbeat of its host. -/
def Undisturbed (w : Shared ω) : Move ω → Prop
  | .get _ _ => True
  | .set i => ∀ p, w.pending i = some p →
      (∀ q ∈ p.since, q.1 ≠ host i → ∃ t, p.read.lookup q.1 = some t ∧ q.2 ≤ t)
        ∧ ∀ t, w.states.lookup (host i) = some t → t ≤ p.t

/-- What a scheduler has read, against what is stored now: what is stored has been read or set
since, and nothing that was read or set is later than what is stored. -/
structure Follows (stored : States) (p : Pending) : Prop where
  known : ∀ h t, stored.lookup h = some t → p.read.lookup h = some t ∨ (h, t) ∈ p.since
  read : Kept p.read stored
  since : ∀ q ∈ p.since, ∃ t, stored.lookup q.1 = some t ∧ q.2 ≤ t

/-- The invariant of a run. -/
def Consistent (w : Shared ω) : Prop := ∀ i p, w.pending i = some p → Follows w.states p

theorem Kept.refl (s : States) : Kept s s := fun _ t h => ⟨t, h, le_rfl⟩

theorem Kept.trans {s s' s'' : States} (h : Kept s s') (h' : Kept s' s'') : Kept s s'' := by
  intro i t ht
  obtain ⟨t', ht', hle⟩ := h i t ht
  obtain ⟨t'', ht'', hle'⟩ := h' i t' ht'
  exact ⟨t'', ht'', hle.trans hle'⟩

theorem Pending.lookup_written (hostId : String) (p : Pending) (h : String) :
    (p.written hostId).lookup h = if h = hostId then some p.t else p.read.lookup h :=
  Dict.lookup_insert_eq p.read h hostId p.t

/-- **A scheduler sets its heartbeats**: nothing gets lost just when it was not disturbed. -/
theorem kept_written_iff {stored : States} {p : Pending} (hp : Follows stored p)
    (hostId : String) : Kept stored (p.written hostId) ↔
      (∀ q ∈ p.since, q.1 ≠ hostId → ∃ t, p.read.lookup q.1 = some t ∧ q.2 ≤ t)
        ∧ ∀ t, stored.lookup hostId = some t → t ≤ p.t := by
  constructor
  · intro h
    refine ⟨fun q hq hne => ?_, fun t ht => ?_⟩
    · obtain ⟨t, ht, hle⟩ := hp.since q hq
      obtain ⟨t', ht', hle'⟩ := h q.1 t ht
      rw [p.lookup_written, if_neg hne] at ht'
      exact ⟨t', ht', hle.trans hle'⟩
    · obtain ⟨t', ht', hle⟩ := h hostId t ht
      rw [p.lookup_written, if_pos rfl] at ht'
      cases ht'
      exact hle
  · rintro ⟨hsince, hown⟩ h t ht
    rw [p.lookup_written]
    by_cases hh : h = hostId
    · rw [if_pos hh]
      exact ⟨p.t, rfl, hown t (hh ▸ ht)⟩
    · rw [if_neg hh]
      rcases hp.known h t ht with hread | hmem
      · exact ⟨t, hread, le_rfl⟩
      · exact hsince (h, t) hmem hh

/-- Another scheduler sets its heartbeats, and nothing gets lost. -/
theorem Follows.note {stored : States} {p q : Pending} (hp : Follows stored p)
    (hq : Follows stored q) {hostId : String} (hkept : Kept stored (q.written hostId)) :
    Follows (q.written hostId) (p.note hostId q.t) := by
  refine ⟨fun h t ht => ?_, hp.read.trans hkept, fun e he => ?_⟩
  · rw [q.lookup_written] at ht
    by_cases hh : h = hostId
    · rw [if_pos hh] at ht
      cases ht
      exact Or.inr (List.mem_cons.mpr (Or.inl (by rw [hh])))
    · rw [if_neg hh] at ht
      -- what the other one puts back for a third host is what is stored
      have hstored : stored.lookup h = some t := by
        obtain ⟨t', ht', hle⟩ := hq.read h t ht
        obtain ⟨t'', ht'', hle'⟩ := hkept h t' ht'
        rw [q.lookup_written, if_neg hh, ht] at ht''
        cases ht''
        rw [ht', le_antisymm hle' hle]
      exact (hp.known h t hstored).imp id (List.mem_cons_of_mem _)
  · rcases List.mem_cons.mp he with rfl | he
    · exact ⟨q.t, by rw [q.lookup_written, if_pos rfl], le_rfl⟩
    · obtain ⟨t, ht, hle⟩ := hp.since e he
      obtain ⟨t', ht', hle'⟩ := hkept e.1 t ht
      exact ⟨t', ht', hle.trans hle'⟩

variable {host} {w : Shared ω}

/-- **One step** loses no heartbeat just when the scheduler was not disturbed. -/
theorem kept_iff_undisturbed (hw : Consistent w) (m : Move ω) :
    Kept w.states (move host w m).states ↔ Undisturbed host w m := by
  cases m with
  | get i t => exact iff_of_true (Kept.refl _) trivial
  | set i =>
    unfold move Undisturbed
    cases hp : w.pending i with
    | none =>
      simp only [hp]
      exact iff_of_true (Kept.refl _) (fun p h => by cases h)
    | some p =>
      simp only [hp, Option.some.injEq, forall_eq']
      exact kept_written_iff (hw i p hp) (host i)

/-- A step that loses no heartbeat keeps the invariant. -/
theorem Consistent.move (hw : Consistent w) (m : Move ω)
    (hkept : Kept w.states (move host w m).states) : Consistent (move host w m) := by
  cases m with
  | get i t =>
    intro j p hj
    unfold DistributedScheduleManager.move at hj ⊢
    by_cases hij : j = i
    · subst hij
      simp only [Function.update_self, Option.some.injEq] at hj
      subst hj
      exact ⟨fun h t' ht' => Or.inl ht', Kept.refl _, fun q hq => by cases hq⟩
    · simp only [Function.update_of_ne hij] at hj
      exact hw j p hj
  | set i =>
    unfold DistributedScheduleManager.move at hkept ⊢
    cases hq : w.pending i with
    | none => simpa only [hq] using hw
    | some q =>
      simp only [hq] at hkept ⊢
      intro j p hj
      by_cases hij : j = i
      · subst hij
        simp only [Function.update_self] at hj
        cases hj
      · simp only [Function.update_of_ne hij] at hj
        obtain ⟨p', hp', rfl⟩ := Option.map_eq_some_iff.mp hj
        exact (hw j p' hp').note (hw i q hq) hkept

/-! ## Runs -/

/-- A step that loses no heartbeat. -/
def StepKeeps (host : ω → String) (w : Shared ω) (m : Move ω) : Prop :=
  Kept w.states (move host w m).states

theorem along_iff (hw : Consistent w) (ms : List (Move ω)) :
    Run.Along (move host) (StepKeeps host) w ms
      ↔ Run.Along (move host) (Undisturbed host) w ms := by
  induction ms generalizing w with
  | nil => exact Iff.rfl
  | cons m ms ih =>
    rw [Run.Along, Run.Along]
    have hone : StepKeeps host w m ↔ Undisturbed host w m := kept_iff_undisturbed hw m
    constructor
    · rintro ⟨hkept, hrest⟩
      exact ⟨hone.mp hkept, (ih (hw.move m hkept)).mp hrest⟩
    · rintro ⟨hok, hrest⟩
      have hkept : StepKeeps host w m := hone.mpr hok
      exact ⟨hkept, (ih (hw.move m hkept)).mpr hrest⟩

variable (host) in
/-- **Heartbeats are not lost** in an interleaving of schedulers, neither replaced by older ones nor
removed, if and only if no scheduler is disturbed between its two steps. -/
theorem keeps_iff_undisturbed (states : States) (ms : List (Move ω)) :
    Run.Along (move host) (StepKeeps host) ⟨states, fun _ => none⟩ ms
      ↔ Run.Along (move host) (Undisturbed host) ⟨states, fun _ => none⟩ ms :=
  along_iff (fun _ _ h => by cases h) ms

/-- The hosts of two schedulers. -/
def pollHost (i : Bool) : String := if i then "net-poll02" else "net-poll01"

/-- One scheduler sets its heartbeat between the two steps of the other. -/
def overtaken : List (Move Bool) := [.get false 100, .get true 101, .set true, .set false]

/-- Its heartbeat is lost. -/
theorem not_keeps_overtaken :
    ¬ Run.Along (move pollHost) (StepKeeps pollHost) ⟨∅, fun _ => none⟩ overtaken := by
  rw [keeps_iff_undisturbed]
  rintro ⟨-, -, -, hlast, -⟩
  obtain ⟨hsince, -⟩ := hlast ⟨∅, 100, [("net-poll02", 101)]⟩ rfl
  obtain ⟨t, ht, -⟩ := hsince ("net-poll02", 101) List.mem_cons_self (by decide)
  cases ht

end DistributedScheduleManager
