/-
# The telephones on the network

`TelephoneWorker` notifies people of telephones that come, move and go.  The sorted set
`pt:phones` has the time at which each telephone was last seen, and the key
`pt:phones:<mac>` the switch and port it was last seen on.  `save` writes both when a
telephone is sighted; `post_bulk_process` removes from the sorted set what is too old and
leaves the keys alone.

Times are seconds since the epoch.  What `save` writes to a key, a dict of two texts, is
what `eval` reads from it again.
-/
import Ptolemy.PostRemap
import Ptolemy.Run

namespace TelephoneWorker

open Driver (truthy)

/-! ## State and notifications -/

/-- Where a telephone is: the dict `current`. -/
structure Place : Type where
  switch : String
  port : String
  deriving DecidableEq, Repr

/-- What `send_email` is called for, with what its message shows. -/
inductive Note : Type where
  | new (m : String) (current : Place)
  | moved (m : String) (last current : Place)
  | disconnected (m : String) (last : Option Place) (ago : ℚ)
  deriving DecidableEq

/-- The telephone of the subject `ip phone <mac>`. -/
def Note.mac : Note → String
  | .new m _ => m
  | .moved m _ _ => m
  | .disconnected m _ _ => m

def Note.isDisconnected : Note → Bool
  | .disconnected _ _ _ => true
  | _ => false

/-- The fields of an item that `save` reads. -/
structure Peer : Type where
  capability_telephone : Option Value := none
  peer_mac_address : Option String := none

/-- The fields of a context that `save` reads. -/
structure PeerContext : Type where
  device : Option String := none
  physical_port : Option String := none

/-- The calls of the worker, with the time of the message. -/
inductive Event : Type where
  | pre_bulk_process
  | save (time : ℚ) (context : PeerContext) (data : Peer)
  | post_bulk_process (time : ℚ)

/-- The two structures in redis, the telephones found in this message, and, beside them, the calls
so far (the last one first) and the notifications sent. -/
structure State : Type where
  zset : Dict String Int := ∅
  keys : Dict String Place := ∅
  found : Nat := 0
  history : List Event := []
  sent : List Note := []

/-! ## The worker -/

/-- `delta`, in seconds. -/
def delta : ℚ := 20 * 60

/-- `int(x)`. -/
def int (x : ℚ) : Int := x.num.tdiv x.den

/-- The members with scores from `lo` to `hi`, by score and then by name. -/
def zrangebyscore (z : Dict String Int) (lo hi : ℚ) : List (String × Int) :=
  (z.items.filter (fun p => lo ≤ (p.2 : ℚ) ∧ (p.2 : ℚ) ≤ hi)).insertionSort
    (fun p q => p.2 < q.2 ∨ p.2 = q.2 ∧ p.1 ≤ q.1)

def zremrangebyscore (z : Dict String Int) (lo hi : ℚ) : Dict String Int :=
  z.restrict (fun m => (z.lookup m).elim true (fun s => !decide (lo ≤ (s : ℚ) ∧ (s : ℚ) ≤ hi)))

/-- The telephone of an item. -/
def Peer.phone (data : Peer) : Option String :=
  match data.capability_telephone, data.peer_mac_address with
  | some c, some m => if truthy c ∧ m ≠ "" then some m else none
  | _, _ => none

/-- The place of a context; without it `save` raises. -/
def PeerContext.place (context : PeerContext) : Option Place :=
  match context.device, context.physical_port with
  | some switch, some port => some ⟨switch, port⟩
  | _, _ => none

/-- The notification for a telephone at `current`, when its key holds `last`.  `DictDiffer` tells
whether a value of their keys, which are the same two, has changed. -/
def notice (m : String) (last : Option Place) (current : Place) : List Note :=
  match last with
  | some last => if last ≠ current then [.moved m last current] else []
  | none => [.new m current]

/-- `save` looks up the rank of a telephone in the sorted set, but decides on the key alone. -/
def save (s : State) (time : ℚ) (context : PeerContext) (data : Peer) : State × List Note :=
  match data.phone with
  | none => (s, [])
  | some m =>
    let s := { s with found := s.found + 1 }
    match context.place with
    | none => (s, [])
    | some current =>
      ({ s with zset := AList.insert m (int time) s.zset, keys := AList.insert m current s.keys },
        notice m (s.keys.lookup m) current)

/-- The members whose disconnection is notified. -/
def outdated (z : Dict String Int) (time : ℚ) : List (String × Int) :=
  (zrangebyscore z 0 time).filter (fun p => p.1 ≠ "" ∧ (p.2 : ℚ) < time - delta)

def post_bulk_process (s : State) (time : ℚ) : State × List Note :=
  if s.found > 0 then
    ({ s with zset := zremrangebyscore s.zset 0 (time - delta) },
      (outdated s.zset time).map
        (fun p => .disconnected p.1 (s.keys.lookup p.1) (time - delta - p.2)))
  else (s, [])

def call (s : State) : Event → State × List Note
  | .pre_bulk_process => ({ s with found := 0 }, [])
  | .save time context data => save s time context data
  | .post_bulk_process time => post_bulk_process s time

/-- A call, its notifications, and the record of both. -/
def step (s : State) (e : Event) : State :=
  { (call s e).1 with history := e :: s.history, sent := s.sent ++ (call s e).2 }

/-- Nothing has been seen yet. -/
def start : State := {}

/-! ## Presence -/

/-- The telephone that a call sights, and its place. -/
def Event.sighting : Event → Option (String × Place)
  | .save _ context data => data.phone.bind (fun m => context.place.map (fun p => (m, p)))
  | _ => none

/-- The place of the most recent sighting of a telephone. -/
def lastPlace : List Event → String → Option Place
  | [], _ => none
  | e :: l, m => match e.sighting with
    | some (m', place) => if m = m' then some place else lastPlace l m
    | none => lastPlace l m

/-- The notifications of a call are those of the presence in the sorted set: a sighted telephone is
new if it is absent, and moved if it is present and its place has changed since the sighting before;
a telephone is disconnected, once, just when its entry is removed. -/
def Right (s : State) (e : Event) : Prop :=
  match e.sighting with
  | some (m, place) =>
    (m ∉ s.zset → (call s e).2 = [.new m place])
    ∧ (m ∈ s.zset → ∃ last, lastPlace s.history m = some last
        ∧ (call s e).2 = if last = place then [] else [.moved m last place])
  | none =>
    (∀ n ∈ (call s e).2, n.isDisconnected = true)
    ∧ ∀ m, ((call s e).2.map Note.mac).count m
        = if m ∈ s.zset ∧ m ∉ (call s e).1.zset then 1 else 0

/-- The sighted telephone is in the sorted set or has never been sighted; no entry is as old as
`delta` when old entries are removed. -/
def Settled (s : State) : Event → Prop
  | .pre_bulk_process => True
  | .save time context data => ∀ m place,
      (Event.save time context data).sighting = some (m, place) →
        m ∈ s.zset ∨ lastPlace s.history m = none
  | .post_bulk_process time => s.found = 0 ∨
      ∀ m score, s.zset.lookup m = some score → 0 ≤ score → (score : ℚ) ≠ time - delta

/-! ### What a call does -/

theorem Peer.phone_ne {data : Peer} {m : String} (h : data.phone = some m) : m ≠ "" := by
  unfold Peer.phone at h
  split at h
  · split_ifs at h with hc
    cases h
    exact hc.2
  · cases h

theorem save_of_sighting (s : State) (time : ℚ) {context : PeerContext} {data : Peer} {m : String}
    {place : Place} (hm : data.phone = some m) (hplace : context.place = some place) :
    save s time context data
      = (⟨AList.insert m (int time) s.zset, AList.insert m place s.keys, s.found + 1, s.history,
          s.sent⟩, notice m (s.keys.lookup m) place) := by
  unfold save
  rw [hm]
  simp only
  rw [hplace]

/-- What is no sighting changes neither structure. -/
theorem save_of_none (s : State) (time : ℚ) {context : PeerContext} {data : Peer}
    (h : data.phone = none ∨ context.place = none) :
    ∃ found, save s time context data = ({ s with found }, []) := by
  unfold save
  cases hm : data.phone with
  | none => exact ⟨s.found, rfl⟩
  | some m =>
    have hplace : context.place = none := by simpa [hm] using h
    simp only
    rw [hplace]
    exact ⟨s.found + 1, rfl⟩

/-- A call that sights a telephone at a place. -/
theorem call_of_sighting {s : State} {e : Event} {m : String} {place : Place}
    (h : e.sighting = some (m, place)) :
    m ≠ "" ∧ (∃ time, (call s e).1.zset = AList.insert m (int time) s.zset)
      ∧ (call s e).1.keys = AList.insert m place s.keys
      ∧ (call s e).2 = notice m (s.keys.lookup m) place := by
  cases e with
  | pre_bulk_process => cases h
  | post_bulk_process time => cases h
  | save time context data =>
    obtain ⟨m', hphone, hplace⟩ := Option.bind_eq_some_iff.mp h
    obtain ⟨place', hcontext, heq⟩ := Option.map_eq_some_iff.mp hplace
    obtain ⟨rfl, rfl⟩ := Prod.mk.inj heq
    have hsave : call s (.save time context data) = _ :=
      save_of_sighting s time hphone hcontext
    rw [hsave]
    exact ⟨Peer.phone_ne hphone, ⟨time, rfl⟩, rfl, rfl⟩

/-- A call that sights none and removes none. -/
theorem call_of_none {s : State} {e : Event} (h : e.sighting = none)
    (hpost : ∀ time, e ≠ .post_bulk_process time) :
    (call s e).1.zset = s.zset ∧ (call s e).1.keys = s.keys ∧ (call s e).2 = [] := by
  cases e with
  | pre_bulk_process => exact ⟨rfl, rfl, rfl⟩
  | post_bulk_process time => exact absurd rfl (hpost time)
  | save time context data =>
    have hnone : data.phone = none ∨ context.place = none := by
      by_contra hc
      obtain ⟨hphone, hcontext⟩ := not_or.mp hc
      obtain ⟨m, hm⟩ := Option.ne_none_iff_exists'.mp hphone
      obtain ⟨place, hplace⟩ := Option.ne_none_iff_exists'.mp hcontext
      rw [Event.sighting, hm, hplace] at h
      cases h
    obtain ⟨found, hsave⟩ := save_of_none s time hnone
    rw [show call s (.save time context data) = _ from hsave]
    exact ⟨rfl, rfl, rfl⟩

theorem post_bulk_process_keys (s : State) (time : ℚ) :
    (post_bulk_process s time).1.keys = s.keys := by
  unfold post_bulk_process
  split_ifs <;> rfl

/-- What is too old leaves the sorted set, where a telephone was found in the message. -/
theorem lookup_post_bulk_process (s : State) (time : ℚ) (m : String) :
    (post_bulk_process s time).1.zset.lookup m
      = if s.found > 0 ∧ ∃ score, s.zset.lookup m = some score ∧ 0 ≤ score
          ∧ (score : ℚ) ≤ time - delta
        then none else s.zset.lookup m := by
  unfold post_bulk_process
  by_cases hfound : s.found > 0
  · rw [if_pos hfound]
    show (zremrangebyscore s.zset 0 (time - delta)).lookup m = _
    unfold zremrangebyscore
    rw [Dict.lookup_restrict]
    cases hm : s.zset.lookup m with
    | none => simp
    | some score =>
      by_cases hold : 0 ≤ score ∧ (score : ℚ) ≤ time - delta
      · simp [hfound, hold]
      · simp [hfound, hold]
  · simp [hfound]

/-- A call that sights no telephone leaves the keys alone and adds nothing to the sorted set. -/
theorem call_of_quiet {s : State} {e : Event} (h : e.sighting = none) :
    (call s e).1.keys = s.keys ∧ ∀ m ∈ (call s e).1.zset, m ∈ s.zset := by
  cases e with
  | post_bulk_process time =>
    refine ⟨post_bulk_process_keys s time, fun m hm => ?_⟩
    obtain ⟨score, hscore⟩ := Dict.mem_iff_lookup.mp hm
    have hlook := lookup_post_bulk_process s time m
    rw [show (post_bulk_process s time).1.zset.lookup m = some score from hscore] at hlook
    split_ifs at hlook
    exact Dict.mem_iff_lookup.mpr ⟨score, hlook.symm⟩
  | pre_bulk_process => exact ⟨rfl, fun _ hm => hm⟩
  | save time context data =>
    obtain ⟨hzset, hkeys, -⟩ := call_of_none (s := s) h (fun _ => by simp)
    exact ⟨hkeys, fun m hm => hzset ▸ hm⟩

/-! ### What is removed and what is notified -/

theorem mem_outdated {z : Dict String Int} {time : ℚ} {m : String} {score : Int} :
    (m, score) ∈ outdated z time
      ↔ z.lookup m = some score ∧ m ≠ "" ∧ 0 ≤ score ∧ (score : ℚ) < time - delta := by
  have hdelta : (0 : ℚ) ≤ delta := by
    unfold delta
    norm_num
  unfold outdated zrangebyscore
  simp only [List.mem_filter, List.mem_insertionSort, Dict.mem_items, decide_eq_true_eq,
    Int.cast_nonneg_iff]
  constructor
  · rintro ⟨⟨hm, hpos, -⟩, hne, hlt⟩
    exact ⟨hm, hne, hpos, hlt⟩
  · rintro ⟨hm, hne, hpos, hlt⟩
    exact ⟨⟨hm, hpos, by linarith⟩, hne, hlt⟩

/-- A member is outdated once at most. -/
theorem nodup_outdated (z : Dict String Int) (time : ℚ) :
    ((outdated z time).map Prod.fst).Nodup := by
  have hitems : (z.items.map Prod.fst).Nodup := by
    rw [Dict.items_map_fst]
    exact z.keys_nodup
  unfold outdated zrangebyscore
  refine List.Nodup.sublist (List.filter_sublist.map _) ?_
  refine (((List.perm_insertionSort _ _).map _).nodup_iff).mpr ?_
  exact List.Nodup.sublist (List.filter_sublist.map _) hitems

/-- The telephones that a removal is notified for. -/
theorem mac_post_bulk_process (s : State) (time : ℚ) :
    (post_bulk_process s time).2.map Note.mac
      = if s.found > 0 then (outdated s.zset time).map Prod.fst else [] := by
  unfold post_bulk_process
  split_ifs
  · rw [List.map_map]
    rfl
  · rfl

theorem isDisconnected_post_bulk_process {s : State} {time : ℚ} {n : Note}
    (h : n ∈ (post_bulk_process s time).2) : n.isDisconnected = true := by
  unfold post_bulk_process at h
  split_ifs at h
  · obtain ⟨p, -, rfl⟩ := List.mem_map.mp h
    rfl
  · cases h

/-! ## The keys follow the sightings -/

/-- A key holds the place of the last sighting, and what is in the sorted set has been sighted. -/
structure Inv (s : State) : Prop where
  keys : ∀ m, s.keys.lookup m = lastPlace s.history m
  sighted : ∀ m ∈ s.zset, m ≠ "" ∧ ∃ place, lastPlace s.history m = some place

theorem lastPlace_of_sighting {e : Event} {m' : String} {place : Place}
    (h : e.sighting = some (m', place)) (l : List Event) (m : String) :
    lastPlace (e :: l) m = if m = m' then some place else lastPlace l m := by
  rw [lastPlace, h]

theorem lastPlace_of_none {e : Event} (h : e.sighting = none) (l : List Event) (m : String) :
    lastPlace (e :: l) m = lastPlace l m := by
  rw [lastPlace, h]

theorem Inv.start : Inv start :=
  ⟨fun _ => rfl, fun m hm => absurd hm (AList.notMem_empty m)⟩

theorem Inv.step {s : State} (hs : Inv s) (e : Event) : Inv (step s e) := by
  cases hsight : e.sighting with
  | some p =>
    obtain ⟨m', place⟩ := p
    obtain ⟨hne, ⟨time, hzset⟩, hkeys, -⟩ := call_of_sighting (s := s) hsight
    refine ⟨fun m => ?_, fun m hm => ?_⟩
    · show (call s e).1.keys.lookup m = lastPlace (e :: s.history) m
      rw [hkeys, lastPlace_of_sighting hsight, Dict.lookup_insert_eq, hs.keys]
    · show m ≠ "" ∧ ∃ place, lastPlace (e :: s.history) m = some place
      rw [lastPlace_of_sighting hsight]
      by_cases hm' : m = m'
      · rw [if_pos hm', hm']
        exact ⟨hne, place, rfl⟩
      · rw [if_neg hm']
        have hmem : m ∈ AList.insert m' (int time) s.zset := hzset ▸ hm
        exact hs.sighted m ((AList.mem_insert _).mp hmem |>.resolve_left hm')
  | none =>
    obtain ⟨hkeys, hzset⟩ := call_of_quiet (s := s) hsight
    refine ⟨fun m => ?_, fun m hm => ?_⟩
    · show (call s e).1.keys.lookup m = lastPlace (e :: s.history) m
      rw [hkeys, lastPlace_of_none hsight, hs.keys]
    · show m ≠ "" ∧ ∃ place, lastPlace (e :: s.history) m = some place
      rw [lastPlace_of_none hsight]
      exact hs.sighted m (hzset m hm)

/-! ## When presence is notified right -/

/-- A sighting is notified right just when the telephone is in the sorted set or is sighted for the
first time. -/
theorem right_of_sighting {s : State} (hs : Inv s) {e : Event} {m : String} {place : Place}
    (h : e.sighting = some (m, place)) :
    Right s e ↔ m ∈ s.zset ∨ lastPlace s.history m = none := by
  obtain ⟨-, -, -, hnotes⟩ := call_of_sighting (s := s) h
  rw [hs.keys] at hnotes
  unfold Right
  rw [h]
  simp only [hnotes]
  constructor
  · rintro ⟨habsent, -⟩
    by_cases hmem : m ∈ s.zset
    · exact Or.inl hmem
    · cases hlast : lastPlace s.history m with
      | none => exact Or.inr rfl
      | some last =>
        -- a removed telephone is still known under its key
        have hnew := habsent hmem
        rw [hlast] at hnew
        by_cases hplace : last = place
        · simp [notice, hplace] at hnew
        · simp [notice, hplace] at hnew
  · intro hor
    refine ⟨fun hmem => ?_, fun hmem => ?_⟩
    · rw [hor.resolve_left hmem, notice]
    · obtain ⟨-, last, hlast⟩ := hs.sighted m hmem
      refine ⟨last, hlast, ?_⟩
      rw [hlast, notice, ite_not]

/-- A removal is notified right just when no entry is as old as `delta`. -/
theorem right_of_post_bulk_process {s : State} (hs : Inv s) (time : ℚ) :
    Right s (.post_bulk_process time) ↔ Settled s (.post_bulk_process time) := by
  have hmac : ∀ m, ((call s (.post_bulk_process time)).2.map Note.mac).count m
      = if s.found > 0 ∧ ∃ score, s.zset.lookup m = some score ∧ 0 ≤ score
          ∧ (score : ℚ) < time - delta then 1 else 0 := by
    intro m
    show ((post_bulk_process s time).2.map Note.mac).count m = _
    rw [mac_post_bulk_process]
    by_cases hfound : s.found > 0
    · rw [if_pos hfound, List.Nodup.count (nodup_outdated _ _)]
      refine if_congr ?_ rfl rfl
      rw [List.mem_map]
      constructor
      · rintro ⟨⟨m', score⟩, hmem, rfl⟩
        obtain ⟨hlook, -, hold⟩ := mem_outdated.mp hmem
        exact ⟨hfound, score, hlook, hold⟩
      · rintro ⟨-, score, hlook, hold⟩
        have hne := (hs.sighted m (Dict.mem_iff_lookup.mpr ⟨score, hlook⟩)).1
        exact ⟨(m, score), mem_outdated.mpr ⟨hlook, hne, hold⟩, rfl⟩
    · simp [hfound]
  have hremoved : ∀ m, (m ∈ s.zset ∧ m ∉ (call s (.post_bulk_process time)).1.zset)
      ↔ s.found > 0 ∧ ∃ score, s.zset.lookup m = some score ∧ 0 ≤ score
          ∧ (score : ℚ) ≤ time - delta := by
    intro m
    have hlook := lookup_post_bulk_process s time m
    rw [← AList.lookup_eq_none, show (call s (.post_bulk_process time)).1.zset.lookup m = _ from hlook,
      Dict.mem_iff_lookup]
    constructor
    · rintro ⟨⟨score, hscore⟩, hnone⟩
      split_ifs at hnone with hold
      · exact hold
      · rw [hscore] at hnone
        cases hnone
    · rintro hold
      obtain ⟨-, score, hscore, -⟩ := id hold
      exact ⟨⟨score, hscore⟩, if_pos hold⟩
  unfold Right Settled
  show (_ ∧ ∀ m, _) ↔ _
  constructor
  · rintro ⟨-, hcount⟩
    by_cases hfound : s.found = 0
    · exact Or.inl hfound
    · refine Or.inr (fun m score hlook hpos heq => ?_)
      -- an entry as old as `delta` is removed without a word
      have hm := hcount m
      rw [hmac, if_pos ((hremoved m).mpr ⟨Nat.pos_of_ne_zero hfound, score, hlook, hpos, heq.le⟩)] at hm
      split_ifs at hm with hold
      obtain ⟨-, score', hlook', -, hlt⟩ := hold
      cases hlook.symm.trans hlook'
      exact absurd heq hlt.ne
  · intro hsettled
    refine ⟨fun n hn => isDisconnected_post_bulk_process hn, fun m => ?_⟩
    rw [hmac]
    refine if_congr ?_ rfl rfl
    rw [hremoved]
    constructor
    · rintro ⟨hfound, score, hlook, hpos, hlt⟩
      exact ⟨hfound, score, hlook, hpos, hlt.le⟩
    · rintro ⟨hfound, score, hlook, hpos, hle⟩
      rcases hsettled with h | h
      · omega
      · exact ⟨hfound, score, hlook, hpos, lt_of_le_of_ne hle (h m score hlook hpos)⟩

/-- **One call** is notified right just when it is settled. -/
theorem right_iff_settled {s : State} (hs : Inv s) (e : Event) : Right s e ↔ Settled s e := by
  cases e with
  | post_bulk_process time => exact right_of_post_bulk_process hs time
  | pre_bulk_process =>
    refine ⟨fun _ => trivial, fun _ => ⟨fun n hn => (by cases hn), fun m => ?_⟩⟩
    rw [if_neg (fun h => h.2 h.1)]
    rfl
  | save time context data =>
    cases hsight : (Event.save time context data).sighting with
    | some p =>
      obtain ⟨m, place⟩ := p
      rw [right_of_sighting hs hsight, Settled]
      constructor
      · intro h m' place' heq
        cases hsight.symm.trans heq
        exact h
      · exact fun h => h m place hsight
    | none =>
      obtain ⟨hzset, -, hnotes⟩ := call_of_none (s := s) hsight (fun _ => by simp)
      refine ⟨fun _ m place heq => (by cases hsight.symm.trans heq), fun _ => ?_⟩
      unfold Right
      rw [hsight]
      simp only [hnotes, hzset]
      refine ⟨fun n hn => (by cases hn), fun m => ?_⟩
      rw [if_neg (fun h => h.2 h.1)]
      rfl

/-- **Presence of telephones**: in a run from an empty redis the notifications are those of the
presence in the sorted set just when every call is settled: no telephone is sighted again after its
entry was removed, and no entry is as old as `delta` when old ones are removed. -/
theorem presence_iff (es : List Event) :
    Run.Along step Right start es ↔ Run.Along step Settled start es :=
  Run.along_congr (fun _ e h => h.step e) Inv.start (fun e _ _ hs => right_iff_settled hs e)

/-! ## The notifications of one telephone -/

/-- What a notification says of a telephone that is present, or absent. -/
def Note.advance (present : Bool) : Note → Option Bool
  | .new _ _ => if present then none else some true
  | .moved _ _ _ => if present then some true else none
  | .disconnected _ _ _ => if present then some false else none

/-- The presence of a telephone after its notifications, where they alternate: new first, moved
while present, and new again after disconnected. -/
def presence (m : String) (sent : List Note) : Option Bool :=
  (sent.filter (fun n => n.mac = m)).foldlM Note.advance false

/-- A call that is notified right takes a telephone from its presence before to its presence after. -/
theorem advance_of_right {s : State} {e : Event} (h : Right s e) (m : String) :
    ((call s e).2.filter (fun n => n.mac = m)).foldlM Note.advance (decide (m ∈ s.zset))
      = some (decide (m ∈ (call s e).1.zset)) := by
  unfold Right at h
  cases hsight : e.sighting with
  | some p =>
    obtain ⟨m', place⟩ := p
    obtain ⟨-, ⟨time, hzset⟩, -, -⟩ := call_of_sighting (s := s) hsight
    rw [hsight] at h
    simp only at h
    have hmem : m ∈ (call s e).1.zset ↔ m = m' ∨ m ∈ s.zset := by
      rw [hzset, AList.mem_insert]
    by_cases hpresent : m' ∈ s.zset
    · obtain ⟨last, -, hnotes⟩ := h.2 hpresent
      rw [hnotes]
      by_cases hm : m = m'
      · subst hm
        by_cases hplace : last = place
        · simp [hplace, hmem, hpresent]
        · simp [hplace, hmem, hpresent, Note.mac, Note.advance]
      · have hm' : ¬ m' = m := fun heq => hm heq.symm
        by_cases hplace : last = place
        · simp [hplace, hmem, hm]
        · simp [hplace, hmem, hm, hm', Note.mac]
    · rw [h.1 hpresent]
      by_cases hm : m = m'
      · subst hm
        simp [hmem, hpresent, Note.mac, Note.advance]
      · have hm' : ¬ m' = m := fun heq => hm heq.symm
        simp [hmem, hm, hm', Note.mac]
  | none =>
    rw [hsight] at h
    obtain ⟨hall, hcount⟩ := h
    have hlength : ((call s e).2.filter (fun n => n.mac = m)).length
        = if m ∈ s.zset ∧ m ∉ (call s e).1.zset then 1 else 0 := by
      rw [← hcount m, List.count_eq_countP, List.countP_map, ← List.countP_eq_length_filter]
      rfl
    by_cases hremoved : m ∈ s.zset ∧ m ∉ (call s e).1.zset
    · rw [if_pos hremoved] at hlength
      obtain ⟨n, hn⟩ := List.length_eq_one_iff.mp hlength
      have hin : n ∈ (call s e).2 :=
        (List.mem_filter.mp (hn ▸ List.mem_singleton_self n)).1
      rw [hn]
      cases n with
      | disconnected m' last ago => simp [hremoved.1, hremoved.2, Note.advance]
      | new m' place => cases hall _ hin
      | moved m' last place => cases hall _ hin
    · rw [if_neg hremoved] at hlength
      rw [List.length_eq_zero_iff.mp hlength]
      have hsame : m ∈ s.zset ↔ m ∈ (call s e).1.zset := by
        refine ⟨fun hm => ?_, (call_of_quiet hsight).2 m⟩
        by_contra hnot
        exact hremoved ⟨hm, hnot⟩
      simp [hsame]

/-- **The notifications of a telephone alternate** in a run that is notified right, and end with
its presence in the sorted set. -/
theorem presence_of_along {es : List Event} (h : Run.Along step Right start es) (m : String) :
    presence m (Run.run step start es).sent
      = some (decide (m ∈ (Run.run step start es).zset)) := by
  have hstep : ∀ s e, presence m s.sent = some (decide (m ∈ s.zset)) → Right s e →
      presence m (step s e).sent = some (decide (m ∈ (step s e).zset)) := by
    intro s e hs hright
    show presence m (s.sent ++ (call s e).2) = some (decide (m ∈ (call s e).1.zset))
    unfold presence at hs ⊢
    rw [List.filter_append, List.foldlM_append, hs, ← advance_of_right hright m]
    rfl
  exact (Run.Along.always hstep rfl h).last

/-! ### A telephone that comes back -/

/-- A telephone on a port of a switch. -/
def sight (time : ℚ) (m port : String) : List Event :=
  [.pre_bulk_process, .save time ⟨some "swh-b050", some port⟩ ⟨some (.bool true), some m⟩,
    .post_bulk_process time]

/-- A telephone that has been removed and comes back is not notified as new; one that is seen again
exactly twenty minutes later by another message is removed without a word. -/
theorem not_presence :
    ¬ Run.Along step Right start
        (sight 1000 "a" "Gi1/1" ++ sight 3000 "b" "Gi1/2" ++ sight 3001 "a" "Gi1/1")
      ∧ ¬ Run.Along step Right start (sight 1000 "a" "Gi1/1" ++ sight 2200 "b" "Gi1/2") := by
  have hback : presence "a" (Run.run step start
      (sight 1000 "a" "Gi1/1" ++ sight 3000 "b" "Gi1/2" ++ sight 3001 "a" "Gi1/1")).sent
        = some false := by decide +kernel
  have hquiet : presence "a" (Run.run step start
      (sight 1000 "a" "Gi1/1" ++ sight 2200 "b" "Gi1/2")).sent = some true := by decide +kernel
  constructor
  · intro h
    have hpresence := hback.symm.trans (presence_of_along h "a")
    revert hpresence
    decide +kernel
  · intro h
    have hpresence := hquiet.symm.trans (presence_of_along h "a")
    revert hpresence
    decide +kernel

end TelephoneWorker
