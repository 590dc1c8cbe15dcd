/-
# The ring of the schedulers

Each `DistributedScheduleManager` holds a ring of the hosts that it believes alive, and
publishes a poll when the ring gives the poll to its own host.  From time to time
`update_ring` reads the heartbeats of all hosts from memcache, adds its own, brings the
ring up to date with them and puts them back.

The ring is changed in place: hosts with a fresh heartbeat are added and hosts with an
old one removed, so that a host which the heartbeats no longer mention is not looked at.
The consistent hashing of the ring is not described here; a ring is the set of its nodes.
-/
import Ptolemy.Dict
import Ptolemy.Run

namespace DistributedScheduleManager

/-! ## Refreshing the ring -/

/-- The time of the last heartbeat of each host. -/
abbrev States : Type := Dict String ℚ

def deadTime : ℚ := 20

def period : ℚ := 10

structure Manager : Type where
  hostId : String
  lastUpdateTime : Option ℚ := none
  ring : Finset String := ∅

/-- One call of `update_ring`: the clock as it is read first, what memcache has, the clock as it is
read for the heartbeat, and the order in which the heartbeats are visited. -/
structure Call : Type 1 where
  n : ℚ
  got : Option States
  t : ℚ
  order : IterOrder := IterOrder.stored

/-- The heartbeats that are read, with that of the host itself. -/
def refreshed (hostId : String) (t : ℚ) (got : Option States) : States :=
  AList.insert hostId t (got.getD ∅)

/-- One host of the heartbeats. -/
def visit (t : ℚ) (ring : Finset String) (p : String × ℚ) : Finset String :=
  if t - p.2 ≤ deadTime then
    if p.1 ∈ ring then ring else insert p.1 ring
  else ring.erase p.1

/-- The loop over the heartbeats. -/
def buildRing (o : IterOrder) (t : ℚ) (states : States) (ring : Finset String) : Finset String :=
  (o.order states.items).foldl (visit t) ring

/-- Whether the last refresh is long enough ago. -/
def Manager.isDue (m : Manager) (n : ℚ) : Bool :=
  decide (m.lastUpdateTime.getD (n - period) ≤ n - period)

/-- `update_ring`: the scheduler after it, and what it puts into memcache. -/
def updateRing (m : Manager) (c : Call) : Manager × Option States :=
  if m.isDue c.n then
    let states := refreshed m.hostId c.t c.got
    ({ m with ring := buildRing c.order c.t states m.ring, lastUpdateTime := some c.n },
      some states)
  else (m, none)

/-! ## What a refresh makes of the ring -/

/-- A host whose heartbeat is not too old. -/
def Live (t : ℚ) (states : States) (i : String) : Prop :=
  ∃ s, states.lookup i = some s ∧ t - s ≤ deadTime

/-- The nodes of the ring are the hosts that are alive. -/
def RingExact (t : ℚ) (states : States) (ring : Finset String) : Prop :=
  ∀ i, i ∈ ring ↔ Live t states i

theorem mem_visit {t : ℚ} {ring : Finset String} {p : String × ℚ} {i : String} :
    i ∈ visit t ring p ↔ if i = p.1 then t - p.2 ≤ deadTime else i ∈ ring := by
  unfold visit
  by_cases hlive : t - p.2 ≤ deadTime
  · rw [if_pos hlive]
    by_cases hi : i = p.1
    · subst hi
      rw [if_pos rfl]
      refine iff_of_true ?_ hlive
      split_ifs with hmem
      · exact hmem
      · exact Finset.mem_insert_self _ _
    · rw [if_neg hi]
      split_ifs
      · exact Iff.rfl
      · rw [Finset.mem_insert, or_iff_right hi]
  · rw [if_neg hlive, Finset.mem_erase]
    by_cases hi : i = p.1
    · rw [if_pos hi]
      exact iff_of_false (fun h => h.1 hi) hlive
    · rw [if_neg hi, and_iff_right hi]

/-- A host that the loop meets is in the ring afterwards when it is alive, and any other host when
it was there before. -/
theorem mem_foldl_visit {t : ℚ} {l : List (String × ℚ)} (hl : (l.map Prod.fst).Nodup)
    {ring : Finset String} {i : String} :
    i ∈ l.foldl (visit t) ring ↔
      (∃ s, (i, s) ∈ l ∧ t - s ≤ deadTime) ∨ i ∉ l.map Prod.fst ∧ i ∈ ring := by
  induction l generalizing ring with
  | nil => simp
  | cons p l ih =>
    obtain ⟨hp, hrest⟩ := List.nodup_cons.mp hl
    rw [List.foldl_cons, ih hrest, mem_visit, List.map_cons, List.mem_cons, not_or]
    by_cases hi : i = p.1
    · subst hi
      rw [if_pos rfl]
      constructor
      · rintro (⟨s, hs, hlive⟩ | ⟨-, hlive⟩)
        · exact Or.inl ⟨s, List.mem_cons_of_mem _ hs, hlive⟩
        · exact Or.inl ⟨p.2, List.mem_cons_self, hlive⟩
      · rintro (⟨s, hs, hlive⟩ | ⟨⟨hne, -⟩, -⟩)
        · rcases List.mem_cons.mp hs with heq | hs
          · exact Or.inr ⟨hp, by rw [← heq]; exact hlive⟩
          · exact absurd (List.mem_map_of_mem hs) hp
        · exact absurd rfl hne
    · rw [if_neg hi]
      have hskip : ∀ s, (i, s) ∈ p :: l ↔ (i, s) ∈ l := by
        intro s
        rw [List.mem_cons, or_iff_right]
        rintro rfl
        exact hi rfl
      simp only [hskip, and_iff_right hi]

/-- **One refresh**: a host is in the ring when it is alive, or when it was there and the heartbeats
do not mention it. -/
theorem mem_buildRing {o : IterOrder} {t : ℚ} {states : States} {ring : Finset String}
    {i : String} : i ∈ buildRing o t states ring ↔ Live t states i ∨ i ∉ states ∧ i ∈ ring := by
  unfold buildRing Live
  rw [mem_foldl_visit (states.nodup_order_keys o)]
  simp only [Dict.mem_order_keys, o.mem_order, Dict.mem_items]

theorem not_live_of_notMem {t : ℚ} {states : States} {i : String} (h : i ∉ states) :
    ¬ Live t states i := by
  rintro ⟨s, hs, -⟩
  exact h (Dict.mem_iff_lookup.mpr ⟨s, hs⟩)

theorem ringExact_buildRing_iff {o : IterOrder} {t : ℚ} {states : States} {ring : Finset String} :
    RingExact t states (buildRing o t states ring) ↔ ∀ i ∈ ring, i ∈ states := by
  constructor
  · intro h i hi
    by_contra hmem
    exact not_live_of_notMem hmem ((h i).mp (mem_buildRing.mpr (Or.inr ⟨hmem, hi⟩)))
  · intro h i
    rw [mem_buildRing]
    exact or_iff_left (fun hleft => hleft.1 (h i hleft.2))

/-- The host itself is alive. -/
theorem live_self (hostId : String) (t : ℚ) (got : Option States) :
    Live t (refreshed hostId t got) hostId := by
  refine ⟨t, AList.lookup_insert _, ?_⟩
  rw [sub_self, deadTime]
  norm_num

/-- What the ring gives to one of its nodes, it gives to a host that is alive. -/
theorem live_of_getNode {getNode : Finset String → String → Option String}
    (hnode : ∀ ring key i, getNode ring key = some i → i ∈ ring) {t : ℚ} {states : States}
    {ring : Finset String} (h : RingExact t states ring) {key i : String}
    (hi : getNode ring key = some i) : Live t states i := (h i).mp (hnode ring key i hi)

/-! ## Runs -/

/-- The scheduler after one call. -/
def step (m : Manager) (c : Call) : Manager := (updateRing m c).1

/-- A call that refreshes the ring makes it exact. -/
def Exact (m : Manager) (c : Call) : Prop :=
  ∀ states, (updateRing m c).2 = some states → RingExact c.t states (step m c).ring

/-- A call that refreshes the ring reads a heartbeat of every host in it, its own host apart. -/
def Mentioned (m : Manager) (c : Call) : Prop :=
  m.isDue c.n = true → ∀ i ∈ m.ring, i = m.hostId ∨ i ∈ c.got.getD ∅

theorem mem_refreshed {hostId : String} {t : ℚ} {got : Option States} {i : String} :
    i ∈ refreshed hostId t got ↔ i = hostId ∨ i ∈ got.getD ∅ := AList.mem_insert _

theorem updateRing_of_due {m : Manager} {c : Call} (h : m.isDue c.n = true) :
    updateRing m c = ({ m with
      ring := buildRing c.order c.t (refreshed m.hostId c.t c.got) m.ring
      lastUpdateTime := some c.n }, some (refreshed m.hostId c.t c.got)) := if_pos h

theorem exact_iff_mentioned (m : Manager) (c : Call) : Exact m c ↔ Mentioned m c := by
  unfold Exact Mentioned step
  by_cases hdue : m.isDue c.n = true
  · rw [updateRing_of_due hdue]
    have hone : (∀ states, some (refreshed m.hostId c.t c.got) = some states →
        RingExact c.t states (buildRing c.order c.t (refreshed m.hostId c.t c.got) m.ring)) ↔
        RingExact c.t (refreshed m.hostId c.t c.got)
          (buildRing c.order c.t (refreshed m.hostId c.t c.got) m.ring) :=
      ⟨fun h => h _ rfl, fun h states hs => Option.some.inj hs ▸ h⟩
    rw [hone, ringExact_buildRing_iff]
    simp only [mem_refreshed, hdue, forall_const]
  · have hidle : updateRing m c = (m, none) := if_neg hdue
    rw [hidle]
    exact iff_of_true (fun states h => by cases h) (fun h => absurd h hdue)

/-- **Ring membership**: in a run, whatever is read from the clock and from memcache, every refresh
leaves the hosts that are alive in the ring and no others if and only if every refresh reads a
heartbeat of every host that is in the ring. -/
theorem ringExact_iff (m : Manager) (cs : List Call) :
    Run.Along step Exact m cs ↔ Run.Along step Mentioned m cs :=
  Run.along_congr (I := fun _ => True) (fun _ _ _ => trivial) trivial
    (fun c _ m _ => exact_iff_mentioned m c)

/-- Two schedulers, and then memcache is flushed. -/
def flushed : List Call :=
  [{ n := 100, got := some (Dict.ofList [("net-poll02", 95)]), t := 100 },
    { n := 110, got := none, t := 110 }]

/-- The host whose heartbeat is gone stays in the ring. -/
theorem not_ringExact_flushed : ¬ Run.Along step Exact { hostId := "net-poll01" } flushed := by
  rw [ringExact_iff]
  rintro ⟨-, hsecond, -⟩
  have hmem : "net-poll02" ∈ (step { hostId := "net-poll01" } (flushed.head (by decide))).ring := by
    decide +kernel
  rcases hsecond (by decide +kernel) "net-poll02" hmem with h | h
  · exact absurd h (by decide +kernel)
  · exact AList.notMem_empty _ h

end DistributedScheduleManager
