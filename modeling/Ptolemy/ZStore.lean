/-
# The scoreboard of times

`ZStoreMixin` keeps the entries that several workers have seen in one sorted set, with
the time at which each was last seen.  `zstore_add` queues its additions and executes
them; `zstore_expire` first reads which entries are too old, queues a deletion for each
as it yields it, and executes these afterwards.  The commands of different workers come
in any order, and so another worker may see an entry between the read and the deletion.
Times are seconds since the epoch, with fractions: `zadd` gets them as they are.
-/
import Ptolemy.Dict
import Ptolemy.Run

namespace ZStore

variable {ω : Type} [DecidableEq ω]

/-! ## Commands and workers -/

/-- A command in a pipeline.  The cut-off for which an entry is deleted is not sent; it is kept to
speak about it. -/
inductive Command : Type where
  | zadd (epoch : ℚ) (v : String)
  | zrem (v : String) (cutoff : ℚ)
  deriving DecidableEq

/-- The sorted set: the score of each entry. -/
abbrev ZSet : Type := Dict String ℚ

def Command.apply (z : ZSet) : Command → ZSet
  | .zadd epoch v => AList.insert v epoch z
  | .zrem v _ => AList.erase v z

/-- The reply to `zadd`: whether the entry is new. -/
def isNew (z : ZSet) (v : String) : Bool := decide (v ∉ z)

/-- The entries with scores from `0` to `until'`, by their scores. -/
def zrangebyscore (z : ZSet) (until' : ℚ) : List String :=
  ((z.items.filter (fun p => 0 ≤ p.2 ∧ p.2 ≤ until')).insertionSort
    (fun p q => p.2 ≤ q.2)).map Prod.fst

/-- A worker: the entries that `zstore_expire` has read and not yielded yet, with its cut-off, and
the commands in its pipeline. -/
structure Worker : Type where
  found : List (String × ℚ) := []
  pipe : List Command := []

/-- The sorted set, the workers, and all commands executed so far, the last one first. -/
structure State (ω : Type) : Type where
  zset : ZSet := ∅
  workers : ω → Worker := fun _ => {}
  history : List Command := []

def State.setWorker (s : State ω) (w : ω) (worker : Worker) : State ω :=
  { s with workers := Function.update s.workers w worker }

/-- `zstore_expire` yields an entry and queues its deletion. -/
def State.remove (s : State ω) (w : ω) : State ω :=
  match (s.workers w).found with
  | [] => s
  | p :: found => s.setWorker w ⟨found, (s.workers w).pipe ++ [.zrem p.1 p.2]⟩

/-- The first command of a pipeline is executed. -/
def State.execute (s : State ω) (w : ω) : State ω :=
  match (s.workers w).pipe with
  | [] => s
  | c :: pipe =>
    ⟨c.apply s.zset, (s.setWorker w ⟨(s.workers w).found, pipe⟩).workers, c :: s.history⟩

/-- The steps of a worker: `zstore_add` queues an addition, `zstore_expire` reads and then queues
deletions, and both execute what is queued. -/
inductive Event (ω : Type) : Type where
  | add (w : ω) (epoch : ℚ) (v : String)
  | read (w : ω) (until' : ℚ)
  | remove (w : ω)
  | execute (w : ω)

def step (s : State ω) : Event ω → State ω
  | .add w epoch v =>
      s.setWorker w ⟨(s.workers w).found, (s.workers w).pipe ++ [.zadd epoch v]⟩
  | .read w until' =>
      s.setWorker w ⟨(zrangebyscore s.zset until').map (fun v => (v, until')), (s.workers w).pipe⟩
  | .remove w => s.remove w
  | .execute w => s.execute w

/-! ## What has been seen -/

/-- The time of the most recent addition of an entry, whether it has been deleted since or not. -/
def lastSeen : List Command → String → Option ℚ
  | [], _ => none
  | .zadd epoch x :: l, v => if v = x then some epoch else lastSeen l v
  | .zrem _ _ :: l, v => lastSeen l v

/-- The score that the commands give an entry. -/
def score : List Command → String → Option ℚ
  | [], _ => none
  | .zadd epoch x :: l, v => if v = x then some epoch else score l v
  | .zrem x _ :: l, v => if v = x then none else score l v

/-- No deletion took an entry away that had been seen later than the cut-off. -/
def NothingFreshDeleted (l : List Command) : Prop :=
  ∀ l₁ l₂ v cutoff, l = l₁ ++ .zrem v cutoff :: l₂ → ∀ t, score l₂ v = some t →
    lastSeen l₂ v = some t ∧ t ≤ cutoff

/-- An entry that was added as new had not been seen before, or had been expired for a cut-off that
was no earlier than the time at which it was last seen. -/
def NewAfterExpiry (l : List Command) : Prop :=
  ∀ l₁ l₂ v epoch, l = l₁ ++ .zadd epoch v :: l₂ → score l₂ v = none →
    ∀ t, lastSeen l₂ v = some t → ∃ cutoff, .zrem v cutoff ∈ l₂ ∧ t ≤ cutoff

theorem lastSeen_of_score {l : List Command} {v : String} {t : ℚ} (h : score l v = some t) :
    lastSeen l v = some t := by
  induction l with
  | nil => cases h
  | cons c l ih =>
    cases c with
    | zadd epoch x =>
      unfold score at h
      unfold lastSeen
      split_ifs at h ⊢
      · exact h
      · exact ih h
    | zrem x cutoff =>
      unfold score at h
      split_ifs at h
      exact ih h

/-- An entry that was seen and has no score now was deleted since. -/
theorem exists_zrem {l : List Command} {v : String} {t : ℚ} (hseen : lastSeen l v = some t)
    (hscore : score l v = none) :
    ∃ l₁ cutoff l₂, l = l₁ ++ .zrem v cutoff :: l₂ ∧ score l₂ v = some t := by
  induction l with
  | nil => cases hseen
  | cons c l ih =>
    -- a command that is not about the entry
    have hskip : lastSeen l v = some t → score l v = none →
        ∃ l₁ cutoff l₂, c :: l = l₁ ++ .zrem v cutoff :: l₂ ∧ score l₂ v = some t := by
      intro hseen' hscore'
      obtain ⟨l₁, cutoff, l₂, hl, hlast⟩ := ih hseen' hscore'
      exact ⟨c :: l₁, cutoff, l₂, by rw [hl, List.cons_append], hlast⟩
    cases c with
    | zadd epoch x =>
      unfold score at hscore
      unfold lastSeen at hseen
      split_ifs at hscore hseen
      exact hskip hseen hscore
    | zrem x cutoff =>
      unfold score at hscore
      by_cases hv : v = x
      · subst hv
        cases hlast : score l v with
        | none => exact hskip hseen hlast
        | some t' =>
          have ht := lastSeen_of_score hlast
          exact ⟨[], cutoff, l, rfl, by rw [hlast, ← ht]; exact hseen⟩
      · rw [if_neg hv] at hscore
        exact hskip hseen hscore

/-- What was deleted only when it was old is new again only after that. -/
theorem NothingFreshDeleted.newAfterExpiry {l : List Command} (h : NothingFreshDeleted l) :
    NewAfterExpiry l := by
  intro l₁ l₂ v epoch hl hscore t hseen
  obtain ⟨l₃, cutoff, l₄, hl₂, hlast⟩ := exists_zrem hseen hscore
  have hdeleted := h (l₁ ++ .zadd epoch v :: l₃) l₄ v cutoff
    (by rw [hl, hl₂, List.append_assoc, List.cons_append]) t hlast
  refine ⟨cutoff, ?_, hdeleted.2⟩
  rw [hl₂]
  exact List.mem_append_right _ List.mem_cons_self

/-! ## Runs -/

/-- A worker means to delete an entry: it has read it as too old and not deleted it yet. -/
def Worker.Means (w : Worker) (v : String) (cutoff : ℚ) : Prop :=
  (v, cutoff) ∈ w.found ∨ .zrem v cutoff ∈ w.pipe

/-- No worker that means to delete an entry is overtaken by an addition of it with a time after the
cut-off. -/
def NotOvertaken (s : State ω) : Event ω → Prop
  | .execute w => ∀ epoch v pipe, (s.workers w).pipe = .zadd epoch v :: pipe →
      ∀ w' cutoff, (s.workers w').Means v cutoff → epoch ≤ cutoff
  | _ => True

/-- The invariant: the sorted set is what the commands make it, what workers mean to delete is old,
and nothing fresh was deleted. -/
structure Sound (s : State ω) : Prop where
  score : ∀ v, s.zset.lookup v = score s.history v
  old : ∀ w v cutoff, (s.workers w).Means v cutoff → ∀ t, s.zset.lookup v = some t → t ≤ cutoff
  deleted : NothingFreshDeleted s.history

theorem mem_zrangebyscore {z : ZSet} {until' : ℚ} {v : String}
    (h : v ∈ zrangebyscore z until') : ∃ t, z.lookup v = some t ∧ t ≤ until' := by
  unfold zrangebyscore at h
  obtain ⟨p, hp, rfl⟩ := List.mem_map.mp h
  rw [List.mem_insertionSort, List.mem_filter] at hp
  have hscore := of_decide_eq_true hp.2
  exact ⟨p.2, Dict.mem_items.mp hp.1, hscore.2⟩

variable {s : State ω}

omit [DecidableEq ω] in
theorem sound_start : Sound ({} : State ω) := by
  refine ⟨fun v => rfl, fun w v cutoff h => ?_, fun l₁ l₂ v cutoff h => ?_⟩
  · rcases h with h | h <;> cases h
  · exact absurd h (by simp)

/-- A step that only changes what one worker means to do. -/
theorem Sound.of_worker (h : Sound s) (w : ω) {worker : Worker}
    (hmeans : ∀ v cutoff, worker.Means v cutoff → (s.workers w).Means v cutoff
      ∨ ∀ t, s.zset.lookup v = some t → t ≤ cutoff) :
    Sound (s.setWorker w worker) := by
  unfold State.setWorker
  refine ⟨h.score, fun w' v cutoff hm => ?_, h.deleted⟩
  by_cases hw : w' = w
  · subst hw
    simp only [Function.update_self] at hm
    rcases hmeans v cutoff hm with hold | hold
    · exact h.old w' v cutoff hold
    · exact hold
  · simp only [Function.update_of_ne hw] at hm
    exact h.old w' v cutoff hm

theorem apply_lookup {z : ZSet} {l : List Command} (h : ∀ v, z.lookup v = score l v) (c : Command)
    (v : String) : (c.apply z).lookup v = score (c :: l) v := by
  cases c with
  | zadd epoch x =>
    unfold Command.apply score
    rw [Dict.lookup_insert_eq, h]
  | zrem x cutoff =>
    unfold Command.apply score
    rw [Dict.lookup_erase_eq, h]

/-- **A command is executed**: an addition overtakes no worker, and a deletion finds its entry as
old as it was read. -/
theorem Sound.execute (h : Sound s) {w : ω} (hok : NotOvertaken s (.execute w)) :
    Sound (s.execute w) := by
  unfold State.execute
  cases hpipe : (s.workers w).pipe with
  | nil => exact h
  | cons c pipe =>
    -- no worker means to do more than before
    have hmeans : ∀ w' v cutoff, ((s.setWorker w ⟨(s.workers w).found, pipe⟩).workers w').Means
        v cutoff → (s.workers w').Means v cutoff := by
      intro w' v cutoff hm
      unfold State.setWorker at hm
      simp only at hm
      by_cases hw : w' = w
      · subst hw
        rw [Function.update_self] at hm
        rcases hm with hm | hm
        · exact Or.inl hm
        · exact Or.inr (hpipe ▸ List.mem_cons_of_mem c hm)
      · rwa [Function.update_of_ne hw] at hm
    refine ⟨apply_lookup h.score c, fun w' v cutoff hm t ht => ?_, ?_⟩
    · have hold := h.old w' v cutoff (hmeans w' v cutoff hm)
      cases c with
      | zadd epoch x =>
        have ht' : (AList.insert x epoch s.zset).lookup v = some t := ht
        rw [Dict.lookup_insert_eq] at ht'
        split_ifs at ht' with hv
        · cases ht'
          subst hv
          exact hok _ v pipe hpipe w' cutoff (hmeans w' v cutoff hm)
        · exact hold t ht'
      | zrem x cutoff' =>
        have ht' : (AList.erase x s.zset).lookup v = some t := ht
        rw [Dict.lookup_erase_eq] at ht'
        split_ifs at ht'
        exact hold t ht'
    · intro l₁ l₂ v cutoff hl t ht
      cases l₁ with
      | nil =>
        obtain ⟨rfl, htail⟩ := List.cons.inj hl
        rw [← htail] at ht ⊢
        refine ⟨lastSeen_of_score ht, ?_⟩
        exact h.old w v cutoff (Or.inr (hpipe ▸ List.mem_cons_self)) t ((h.score v).trans ht)
      | cons c' l₁ =>
        exact h.deleted l₁ l₂ v cutoff (List.cons.inj hl).2 t ht

theorem Sound.step (h : Sound s) (e : Event ω) (hok : NotOvertaken s e) :
    Sound (step s e) := by
  cases e with
  | add w epoch v =>
    refine h.of_worker w (fun v' cutoff hm => Or.inl ?_)
    rcases hm with hm | hm
    · exact Or.inl hm
    · rcases List.mem_append.mp hm with hm | hm
      · exact Or.inr hm
      · cases List.mem_singleton.mp hm
  | read w until' =>
    refine h.of_worker w (fun v cutoff hm => ?_)
    rcases hm with hm | hm
    · obtain ⟨v', hv', heq⟩ := List.mem_map.mp hm
      cases heq
      obtain ⟨t, ht, hle⟩ := mem_zrangebyscore hv'
      refine Or.inr (fun t' ht' => ?_)
      rw [ht] at ht'
      cases ht'
      exact hle
    · exact Or.inl (Or.inr hm)
  | remove w =>
    show Sound (s.remove w)
    unfold State.remove
    cases hfound : (s.workers w).found with
    | nil => exact h
    | cons p found =>
      refine h.of_worker w (fun v cutoff hm => Or.inl ?_)
      unfold Worker.Means
      rw [hfound]
      rcases hm with hm | hm
      · exact Or.inl (List.mem_cons_of_mem p hm)
      · rcases List.mem_append.mp hm with hm | hm
        · exact Or.inr hm
        · cases List.mem_singleton.mp hm
          exact Or.inl List.mem_cons_self
  | execute w => exact h.execute hok

/-- What holds of the commands executed, and of the sorted set that they have left: no deletion took
away an entry that was seen after the cut-off, and an entry is new only when it was never seen or
has expired. -/
structure FreshKept (s : State ω) : Prop where
  score : ∀ v, s.zset.lookup v = score s.history v
  isNew : ∀ v, isNew s.zset v = true ↔ ZStore.score s.history v = none
  deleted : NothingFreshDeleted s.history
  added : NewAfterExpiry s.history

/-- **Fresh entries are kept** in every state of every run in which no addition overtakes a worker
that means to delete the entry. -/
theorem fresh_kept {es : List (Event ω)} (h : Run.Along step NotOvertaken {} es) :
    Run.Always step FreshKept {} es := by
  have hsound : Run.Always step Sound ({} : State ω) es :=
    h.always (fun s e hs hP => hs.step e hP) sound_start
  refine hsound.imp (fun s hs => ⟨hs.score, fun v => ?_, hs.deleted, hs.deleted.newAfterExpiry⟩)
  unfold isNew
  rw [decide_eq_true_iff, ← hs.score, AList.lookup_eq_none]

/-- Two workers: one adds an entry, and the other expires it later. -/
def expiring : List (Event Bool) :=
  [.add false 1200 "00:11:22:33:44:55", .execute false, .read true 2400, .remove true, .execute true,
    .add false 3600 "00:11:22:33:44:55", .execute false]

theorem fresh_kept_expiring : Run.Always step FreshKept {} expiring := by
  refine fresh_kept ⟨trivial, ?_, trivial, trivial, ?_, trivial, ?_, trivial⟩
  · -- no worker means to delete anything yet
    intro epoch v pipe _ w' cutoff hm
    rcases w' with _ | _
    · rcases hm with hm | hm
      · cases hm
      · cases List.mem_singleton.mp hm
    · rcases hm with hm | hm <;> cases hm
  · intro epoch v pipe hpipe
    cases hpipe
  · intro epoch v pipe _ w' cutoff hm
    rcases w' with _ | _
    · rcases hm with hm | hm
      · cases hm
      · cases List.mem_singleton.mp hm
    · rcases hm with hm | hm <;> cases hm

/-- The entry is seen again between the read and the deletion. -/
def overtaking : List (Event Bool) :=
  [.add false 1200 "00:11:22:33:44:55", .execute false, .read true 2400,
    .add false 3600 "00:11:22:33:44:55", .execute false, .remove true, .execute true]

/-- An entry seen after the cut-off is deleted. -/
theorem not_fresh_kept_overtaking :
    ¬ Run.Always step FreshKept ({} : State Bool) overtaking := by
  intro h
  have hdeleted := h.last.deleted
  have hhistory : (Run.run step ({} : State Bool) overtaking).history
      = [.zrem "00:11:22:33:44:55" 2400, .zadd 3600 "00:11:22:33:44:55",
        .zadd 1200 "00:11:22:33:44:55"] := by decide
  rw [hhistory] at hdeleted
  exact absurd (hdeleted [] _ _ _ rfl 3600 (by decide)).2 (by decide)

end ZStore
