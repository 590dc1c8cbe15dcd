/-
# The scoreboards of the ports

`CapacityWorker` ranks the utilisation of the ports on sorted sets: one of all ports for each
range of minutes, one of the ports that are linked to a switch, and one for each device.  They
are written from the messages of three specs, and each message may fail half way, when the key of
a port cannot be taken apart.

The scoreboards stay in step whatever comes: that of a device has the scores of its own ports, as
the one of all ports has them, and that of the uplinks has the scores of ports with a neighbour.
Every alert tells scores that are on the scoreboards when it is sent.

The worker reads nothing from Redis before the commands that it has queued are executed, so a
command counts as executed when it is queued.
-/
import Ptolemy.CapacityWindow
import Ptolemy.Feeder
import Ptolemy.RecordIsolation
import Ptolemy.AlertLimits

/-! ## Invariants of a backend -/

namespace Feeder

variable {σ ρ : Type} {h : Hooks σ ρ} {I : σ → Prop}

/-- What the hooks preserve, the items of a context preserve. -/
theorem runItems_invariant (htask : ∀ t m c i d s, I s → I (h._processTask t m c i d s).2)
    (time : Value) (m : ItemMeta) (ctx : Context) (delta : Option Int) (items : List Item) {s : σ}
    (hs : I s) : I (runItems h time m ctx delta items s).2 := by
  induction items generalizing s with
  | nil => exact hs
  | cons i is ih =>
    have hstep := htask time m ctx i delta s hs
    unfold runItems
    cases hr : h._processTask time m ctx i delta s with
    | mk r s' =>
      rw [hr] at hstep
      cases r with
      | ok r => exact ih hstep
      | error e => exact ih hstep

/-- **Invariant rule**: what the three hooks preserve, a context of a message preserves. -/
theorem runContext_invariant (hpre : ∀ t m c d s, I s → I (h.preBulkProcess t m c d s).2)
    (htask : ∀ t m c i d s, I s → I (h._processTask t m c i d s).2)
    (hpost : ∀ t m c s, I s → I (h.postBulkProcess t m c s).2) (time : Value) (m : ItemMeta)
    (delta : Option Int) (p : Context × List Item) {s : σ} (hs : I s) :
    I (runContext h time m delta p s).2 := by
  have hfirst := hpre time m p.1 p.2 s hs
  unfold runContext
  cases hr : h.preBulkProcess time m p.1 p.2 s with
  | mk r s₁ =>
    rw [hr] at hfirst
    cases r with
    | error e => exact hfirst
    | ok accept =>
      have hitems : I (if accept then runItems h time m p.1 delta p.2 s₁ else ([], s₁)).2 := by
        split_ifs
        · exact runItems_invariant htask time m p.1 delta p.2 hfirst
        · exact hfirst
      have hlast := hpost time m p.1 _ hitems
      dsimp only
      cases hr' : h.postBulkProcess time m p.1
          (if accept then runItems h time m p.1 delta p.2 s₁ else ([], s₁)).2 with
      | mk r' s₃ =>
        rw [hr'] at hlast
        cases r' with
        | ok more => exact hlast
        | error e => exact hlast

end Feeder

namespace CapacityWorker

/-! ## The worker -/

/-- What the code takes from its surroundings: `float` reads a text, and `share` writes a rate. -/
structure Env : Type 1 where
  share : Share
  float : String → Option ℚ
  order : IterOrder := IterOrder.stored

/-- The scoreboards, by their keys: the members with their scores. -/
abbrev Boards : Type := Dict String (Dict String String)

/-- What the worker keeps in Redis.  The keys of texts, sets and scoreboards end differently. -/
structure Redis : Type where
  texts : Dict String String := ∅
  sets : Store := ∅
  boards : Boards := ∅

structure Alert : Type where
  device : String
  physical_port : String
  direction : String
  has_peer : Option Bool
  data : Dict ℕ (Option String)

structure Worker : Type where
  redis : Redis := {}
  now : ℚ := 0
  post_capacities : List String := []
  post_analyse : List String := []
  alerts : List Alert := []

/-! ### Keys -/

def portKey (device physical_port : String) : String :=
  "pt:cap:" ++ (device ++ (":" ++ physical_port))

/-- The key of the scoreboard of all ports. -/
def topKey (t : ℕ) : String := "pt:cap:" ++ toString (t : ℤ)

def topOnDeviceKey (device : String) (t : ℕ) : String :=
  "pt:cap:" ++ (device ++ (":" ++ toString (t : ℤ)))

def topUplinksKey (t : ℕ) : String := topOnDeviceKey "uplinks" t

def capKey (k : String) : String := k ++ ":cap"

def peerKey (k : String) : String := k ++ ":peer"

/-- The parts of a key. -/
structure PortHash : Type where
  device : String
  physical_port : String
  direction : Option String
  deriving DecidableEq

def key_to_hash (key : String) : Except Exn PortHash :=
  match Text.split ':' (Driver.withoutText "pt:cap:" key) with
  | device :: physical_port :: a => .ok ⟨device, physical_port, a.head?⟩
  | _ => .error (.exception "pop from empty list")

/-! ### Saving -/

/-- `int(v)`. -/
def Env.int (env : Env) : Value → Option ℤ
  | .bool b => some b.toInt
  | .int n => some n
  | .float t => (env.float t).map (fun q => if q < 0 then ⌈q⌉ else ⌊q⌋)
  | .str s => Text.int? s
  | _ => none

variable (env : Env)

/-- The counters of a record in both directions, up to one that is no number. -/
def saveCounters (time : Value) (k : String) (data : Item) (sets : Store) : Store × Bool :=
  if "octets_in" ∈ data ∧ "octets_out" ∈ data then
    match env.int time with
    | none => (sets, false)
    | some t =>
      match (data.lookup "octets_in").bind env.int with
      | none => (sets, false)
      | some c =>
        let sets := zadd sets (setKey k "in") t c
        match (data.lookup "octets_out").bind env.int with
        | none => (sets, false)
        | some c => (zadd sets (setKey k "out") t c, true)
  else (sets, true)

def save_speed_meta (k : String) (data : Item) (texts : Dict String String) : Dict String String :=
  if (data.lookup "physical").any Driver.truthy then
    match data.lookup "speed" with
    | some speed => texts.insert (capKey k) speed.toText
    | none => texts
  else texts

def save_layer1_meta (k : String) (texts : Dict String String) : Dict String String :=
  texts.insert (peerKey k) "True"

/-- What is raised is caught. -/
def save (call : SaveCall) (w : Worker) : Except Exn Unit × Worker :=
  (.ok (), match call.context.lookup "device", call.context.lookup "physical_port" with
    | some device, some port =>
      let k := portKey device.toText port.toText
      if call.meta'.spec = "port_stats" then
        let (sets, ok) := saveCounters env call.time k call.data w.redis.sets
        let w := { w with redis := { w.redis with sets := sets } }
        if ok then { w with
          post_capacities := w.post_capacities ++ [k]
          post_analyse := w.post_analyse ++ directions.map (setKey k) }
        else w
      else if call.meta'.spec = "ports" then
        { w with redis := { w.redis with texts := save_speed_meta k call.data w.redis.texts } }
      else if call.meta'.spec = "layer1_peer" then
        { w with redis := { w.redis with texts := save_layer1_meta k w.redis.texts } }
      else w
    | _, _ => w)

/-! ### Ranking -/

def get_capacities (texts : Dict String String) (keys : List String) : Dict String ℚ :=
  keys.foldl (fun capacity k => match (texts.lookup (capKey k)).bind env.float with
    | some c => capacity.insert k (c * 1000000)
    | none => capacity) ∅

/-- A port that is linked to another switch. -/
def isPeer (texts : Dict String String) (k : String) : Bool :=
  (texts.lookup (peerKey k)).any (· ≠ "")

def get_layer1_peers (texts : Dict String String) (keys : List String) : Dict String Bool :=
  keys.foldl (fun peers k => peers.insert k (isPeer texts k)) ∅

def board (boards : Boards) (key : String) : Dict String String := (boards.lookup key).getD ∅

def zaddBoard (boards : Boards) (key k s : String) : Boards :=
  boards.insert key ((board boards key).insert k s)

/-- One range of one key. -/
def rankRange (peers : Dict String Bool) (k : String) (d : PortHash) (score : Score)
    (boards : Boards) (t : ℕ) : Boards :=
  match (score.rates.lookup t).join with
  | none => boards
  | some s =>
    let boards := zaddBoard boards (topKey t) k s
    let boards := if peers.lookup (portKey d.device d.physical_port) = some true then
        zaddBoard boards (topUplinksKey t) k s
      else boards
    zaddBoard boards (topOnDeviceKey d.device t) k s

/-- The loop over the scores; it ends at a key that cannot be taken apart. -/
def rank (peers : Dict String Bool) : List (String × Score) → Boards → Boards × Except Exn Unit
  | [], boards => (boards, .ok ())
  | (k, score) :: scores, boards =>
    match key_to_hash k with
    | .error e => (boards, .error e)
    | .ok d => rank peers scores (ranges.foldl (rankRange peers k d score) boards)

def zremrangebyscore (sets : Store) (k : String) (min max : ℚ) : Store :=
  match sets.lookup k with
  | none => sets
  | some z => sets.insert k
      (Dict.ofList (z.items.filter (fun p => ¬ (min ≤ (p.2 : ℚ) ∧ (p.2 : ℚ) ≤ max))))

def removeOld (now : ℚ) (keys : List String) (sets : Store) : Store :=
  keys.foldl (fun sets k => zremrangebyscore sets k 0 (ago now 60 - 120)) sets

/-! ### Alerts -/

/-- The text of a rate is always that of a number. -/
def exceeds (score : Score) : Bool :=
  ranges.any (fun t => ((score.rates.lookup t).join.bind env.float).any (fun x => 1 / 2 < x))

def process_alert (peers : Dict String Bool) (p : String × Score) : List Alert :=
  if exceeds env p.2 then
    match Text.split ':' p.1 with
    | _ :: _ :: device :: physical_port :: direction :: _ =>
      [⟨device, physical_port, direction,
        peers.lookup (Driver.withoutText ":out" (Driver.withoutText ":in" p.1)), p.2.rates⟩]
    | _ => []
  else []

/-! ### A message -/

def pre_bulk_process (clock : ℚ) (w : Worker) : Worker :=
  { w with now := clock, post_capacities := [], post_analyse := [] }

/-- The scores of what was saved. -/
def scores (w : Worker) : List (String × Score) :=
  env.order.order (get_utilisations env.share w.now w.redis.sets w.post_analyse
    (get_capacities env w.redis.texts w.post_capacities)).items

def post_bulk_process (w : Worker) : Except Exn (List Unit) × Worker :=
  let peers := get_layer1_peers w.redis.texts w.post_capacities
  match rank peers (scores env w) w.redis.boards with
  | (boards, .error e) => (.error e, { w with redis := { w.redis with boards := boards } })
  | (boards, .ok ()) => (.ok [], { w with
      redis := { w.redis with
        boards := boards
        sets := removeOld w.now w.post_analyse w.redis.sets }
      alerts := w.alerts ++ (scores env w).flatMap (process_alert env peers) })

/-- The clock is read for each context. -/
def backend (clock : Context → ℚ) : Backend Worker Unit where
  preBulkProcess := fun _ _ c _ w => (.ok true, pre_bulk_process (clock c) w)
  save := save env
  postBulkProcess := fun _ _ _ w => post_bulk_process env w

/-- A context of a message with its items, as `process_task` works on it. -/
structure Bulk : Type where
  clock : Context → ℚ
  time : Value
  meta' : ItemMeta
  delta : Option Int
  context : Context
  items : List Item

def step (w : Worker) (b : Bulk) : Worker :=
  (Feeder.runContext (backend env b.clock).hooks b.time b.meta' b.delta (b.context, b.items) w).2

variable {κ : Type} [DecidableEq κ] (kv : Context → κ)

/-- What a message comes to; one that cannot be extracted leaves the worker as it is. -/
def handle (w : Worker) (input : (Context → ℚ) × Message) : Worker :=
  match Feeder.processTask kv env.order true (backend env input.1).hooks input.2 w with
  | .ok (_, w') => w'
  | .error _ => w

/-- The contexts of a message. -/
def bulks (input : (Context → ℚ) × Message) : List Bulk :=
  if input.2.data.isNone || input.2._meta.isNone then []
  else
    match Feeder.extract kv env.order true input.2 with
    | .error _ => []
    | .ok (time, m, contexts) => contexts.map (fun p =>
        ⟨input.1, time, m, input.2._meta.bind Meta.archiveAfter, p.1, p.2⟩)

/-! ## The keys of the scoreboards -/

theorem append_left_cancel {p s s' : String} (h : p ++ s = p ++ s') : s = s' := by
  have hlist := congrArg String.toList h
  rw [String.toList_append, String.toList_append] at hlist
  exact String.toList_inj.mp (List.append_cancel_left hlist)

theorem colon_notMem (t : ℕ) : ':' ∉ (toString (t : ℤ)).toList :=
  Text.notMem_toString (by decide) (by decide) t

theorem toString_injective : Function.Injective (fun t : ℕ => (toString (t : ℤ) : String)) := by
  intro t t' h
  have hint := congrArg Text.int? h
  simp only [Text.int?_toString] at hint
  exact Int.ofNat_inj.mp (Option.some.inj hint)

theorem topKey_injective : Function.Injective topKey :=
  fun _ _ h => toString_injective (append_left_cancel h)

theorem topKey_ne (t t' : ℕ) (d : String) : topKey t ≠ topOnDeviceKey d t' := by
  intro h
  have hrest := append_left_cancel h
  refine colon_notMem t ?_
  rw [hrest, String.toList_append, String.toList_append]
  exact List.mem_append_right _ (List.mem_append_left _ List.mem_cons_self)

/-- A text is taken apart at its last colon. -/
theorem append_colon_inj {s s' t t' : String} (ht : ':' ∉ t.toList) (ht' : ':' ∉ t'.toList)
    (h : s ++ (":" ++ t) = s' ++ (":" ++ t')) : s = s' ∧ t = t' := by
  have hrest := congrArg (fun u : String => u.toList.reverse) h
  simp only [String.toList_append, List.reverse_append] at hrest
  have hcolon : ":".toList.reverse = [':'] := rfl
  rw [hcolon, List.append_assoc, List.append_assoc, List.singleton_append,
    List.singleton_append] at hrest
  have hpieces := congrArg (Text.splitChars ':') hrest
  rw [Text.splitChars_append_cons _ (fun hmem => ht (List.mem_reverse.mp hmem)),
    Text.splitChars_append_cons _ (fun hmem => ht' (List.mem_reverse.mp hmem))] at hpieces
  have hlast := (List.cons.inj hpieces).1
  rw [hlast] at hrest
  have hfirst := (List.cons.inj (List.append_cancel_left hrest)).2
  exact ⟨String.toList_inj.mp (List.reverse_injective hfirst),
    String.toList_inj.mp (List.reverse_injective hlast)⟩

theorem topOnDeviceKey_inj {d d' : String} {t t' : ℕ} :
    topOnDeviceKey d t = topOnDeviceKey d' t' ↔ d = d' ∧ t = t' := by
  refine ⟨fun h => ?_, fun ⟨hd, ht⟩ => by rw [hd, ht]⟩
  obtain ⟨hd, ht⟩ := append_colon_inj (colon_notMem t) (colon_notMem t') (append_left_cancel h)
  exact ⟨hd, toString_injective ht⟩

theorem colon_notMem_direction {direction : String} (h : direction ∈ directions) :
    ':' ∉ direction.toList := by
  revert direction
  decide

theorem setKey_inj {p p' direction direction' : String} (h : direction ∈ directions)
    (h' : direction' ∈ directions) (heq : setKey p direction = setKey p' direction') :
    p = p' ∧ direction = direction' :=
  append_colon_inj (colon_notMem_direction h) (colon_notMem_direction h') heq

theorem capKey_ne_peerKey (k p : String) : capKey k ≠ peerKey p := by
  intro h
  have hlast := congrArg (fun u : String => u.toList.getLast?) h
  unfold capKey peerKey at hlast
  simp only [String.toList_append] at hlast
  rw [List.getLast?_append_of_ne_nil _ (by decide), List.getLast?_append_of_ne_nil _ (by decide)]
    at hlast
  exact absurd hlast (by decide)

/-! ## Keys that can be taken apart -/

/-- A device and a port without colons, and without the beginning of the keys between them. -/
def PlainPort (device physical_port : String) : Prop :=
  ':' ∉ device.toList ∧ ':' ∉ physical_port.toList
    ∧ ¬ (physical_port = "cap" ∧ ['p', 't'] <:+ device.toList)

theorem splitChars_eq_singleton {l p : List Char} (h : Text.splitChars ':' l = [p]) : l = p := by
  by_cases hmem : ':' ∈ l
  · obtain ⟨a, b, rfl⟩ := List.append_of_mem hmem
    rw [Text.splitChars_append] at h
    have hlength := congrArg List.length h
    rw [List.length_append] at hlength
    have ha := List.length_pos_iff.mpr (Text.splitChars_ne_nil ':' a)
    have hb := List.length_pos_iff.mpr (Text.splitChars_ne_nil ':' b)
    simp only [List.length_singleton] at hlength
    omega
  · rw [Text.splitChars_of_notMem hmem] at h
    exact (List.cons.inj h).1

/-- The parts of a key, in characters. -/
theorem splitChars_key {a b c : List Char} (ha : ':' ∉ a) (hb : ':' ∉ b) (hc : ':' ∉ c) :
    Text.splitChars ':' (a ++ ':' :: (b ++ ':' :: c)) = [a, b, c] := by
  rw [Text.splitChars_append_cons _ ha, Text.splitChars_append_cons _ hb,
    Text.splitChars_of_notMem hc]

/-- Nothing else of the key looks like its beginning. -/
theorem not_prefix_of_plain {device port direction : String} (h : PlainPort device port)
    (hdir : ':' ∉ direction.toList) {r : List Char}
    (hr : r <:+ device.toList ++ ':' :: (port.toList ++ ':' :: direction.toList)) :
    ¬ "pt:cap:".toList <+: r := by
  obtain ⟨hdevice, hport, hcap⟩ := h
  rintro ⟨y, rfl⟩
  obtain ⟨x, hx⟩ := hr
  have hsplit := congrArg (Text.splitChars ':') hx
  rw [splitChars_key hdevice hport hdir] at hsplit
  have hshape : x ++ ("pt:cap:".toList ++ y)
      = (x ++ ['p', 't']) ++ ':' :: (['c', 'a', 'p'] ++ ':' :: y) := by
    rw [show "pt:cap:".toList = ['p', 't', ':', 'c', 'a', 'p', ':'] from rfl]
    simp
  rw [hshape, Text.splitChars_append, Text.splitChars_append_cons _ (by decide)] at hsplit
  -- three parts: one before the port, and one after it
  have hlength := congrArg List.length hsplit
  have hx₁ := List.length_pos_iff.mpr (Text.splitChars_ne_nil ':' (x ++ ['p', 't']))
  have hy := List.length_pos_iff.mpr (Text.splitChars_ne_nil ':' y)
  simp only [List.length_append, List.length_cons, List.length_nil] at hlength
  obtain ⟨p, hp⟩ := List.length_eq_one_iff.mp
    (show (Text.splitChars ':' (x ++ ['p', 't'])).length = 1 by omega)
  rw [hp, List.singleton_append] at hsplit
  obtain ⟨hp', hrest⟩ := List.cons.inj hsplit
  refine hcap ⟨String.toList_inj.mp (List.cons.inj hrest).1.symm, x, ?_⟩
  rw [splitChars_eq_singleton hp, hp']

/-- **Keys round trip**: the key of a plain port is taken apart into its device and port. -/
theorem key_to_hash_setKey {device port direction : String} (h : PlainPort device port)
    (hdir : ':' ∉ direction.toList) :
    key_to_hash (setKey (portKey device port) direction) = .ok ⟨device, port, some direction⟩ := by
  have hkey : (setKey (portKey device port) direction).toList = "pt:cap:".toList
      ++ (device.toList ++ ':' :: (port.toList ++ ':' :: direction.toList)) := by
    unfold setKey portKey
    simp only [String.toList_append, List.append_assoc]
    rfl
  unfold key_to_hash Driver.withoutText Text.split
  rw [hkey, Driver.replaceChars_append (by decide),
    Driver.replaceChars_of_not_prefix (fun r hr => not_prefix_of_plain h hdir hr), String.toList_ofList,
    splitChars_key h.1 h.2.1 hdir]
  simp only [List.map_cons, List.map_nil, String.ofList_toList]
  rfl

/-! ## Ranking -/

/-- The score of a member. -/
def entry (boards : Boards) (key k : String) : Option String := (board boards key).lookup k

theorem entry_zaddBoard (boards : Boards) (key k s key' k' : String) :
    entry (zaddBoard boards key k s) key' k'
      = if key' = key ∧ k' = k then some s else entry boards key' k' := by
  unfold entry zaddBoard board
  rw [Dict.lookup_insert_eq]
  by_cases hkey : key' = key
  · subst hkey
    rw [if_pos rfl, Option.getD_some, Dict.lookup_insert_eq]
    exact if_congr (and_iff_right rfl).symm rfl rfl
  · rw [if_neg hkey, if_neg (fun h => hkey h.1)]

/-- The scoreboards that have a key for a range. -/
def Listed (peers : Dict String Bool) (d : PortHash) (t : ℕ) (key : String) : Prop :=
  key = topKey t ∨ key = topOnDeviceKey d.device t
    ∨ peers.lookup (portKey d.device d.physical_port) = some true ∧ key = topUplinksKey t

instance (peers : Dict String Bool) (d : PortHash) (t : ℕ) (key : String) :
    Decidable (Listed peers d t key) :=
  inferInstanceAs (Decidable (_ ∨ _ ∨ _ ∧ _))

/-- One range of one key writes one score. -/
theorem entry_rankRange (peers : Dict String Bool) (k : String) (d : PortHash) (score : Score)
    (boards : Boards) (t : ℕ) (key k' : String) :
    entry (rankRange peers k d score boards t) key k'
      = if k' = k ∧ Listed peers d t key then
          (score.rates.lookup t).join.or (entry boards key k')
        else entry boards key k' := by
  unfold rankRange
  cases hs : (score.rates.lookup t).join with
  | none => simp
  | some s =>
    simp only [Option.some_or]
    by_cases hpeer : peers.lookup (portKey d.device d.physical_port) = some true
    · rw [if_pos hpeer]
      simp only [entry_zaddBoard, Listed, hpeer, true_and]
      split_ifs <;> tauto
    · rw [if_neg hpeer]
      simp only [entry_zaddBoard, Listed, hpeer, false_and, or_false]
      split_ifs <;> tauto

/-! ## Scoreboards in step -/

def deviceOf (k : String) : Option String := (key_to_hash k).toOption.map PortHash.device

/-- The scoreboard of a device has the scores of its ports, as the one of all ports has them; and
that of the uplinks has scores of ports with a neighbour, as the one of all ports has them.  One
scoreboard is both where the device is called `uplinks`. -/
structure InStep (r : Redis) : Prop where
  device : ∀ d t k, d ≠ "uplinks" → entry r.boards (topOnDeviceKey d t) k
    = if deviceOf k = some d then entry r.boards (topKey t) k else none
  uplinks : ∀ device port direction t s, PlainPort device port → direction ∈ directions →
    entry r.boards (topUplinksKey t) (setKey (portKey device port) direction) = some s →
    entry r.boards (topKey t) (setKey (portKey device port) direction) = some s
      ∧ (device = "uplinks" ∨ isPeer r.texts (portKey device port) = true)

section listed

variable {peers : Dict String Bool} {d : PortHash} {t : ℕ}

theorem listed_topKey (t' : ℕ) : Listed peers d t (topKey t') ↔ t' = t := by
  unfold Listed topUplinksKey
  constructor
  · rintro (h | h | ⟨-, h⟩)
    · exact topKey_injective h
    · exact absurd h (topKey_ne _ _ _)
    · exact absurd h (topKey_ne _ _ _)
  · rintro rfl
    exact Or.inl rfl

theorem listed_topOnDeviceKey {d' : String} (hd' : d' ≠ "uplinks") (t' : ℕ) :
    Listed peers d t (topOnDeviceKey d' t') ↔ d' = d.device ∧ t' = t := by
  unfold Listed topUplinksKey
  rw [topOnDeviceKey_inj, topOnDeviceKey_inj]
  constructor
  · rintro (h | h | ⟨-, h, -⟩)
    · exact absurd h.symm (topKey_ne _ _ _)
    · exact h
    · exact absurd h hd'
  · exact fun h => Or.inr (Or.inl h)

theorem listed_topUplinksKey (t' : ℕ) : Listed peers d t (topUplinksKey t')
    ↔ (d.device = "uplinks" ∨ peers.lookup (portKey d.device d.physical_port) = some true)
      ∧ t' = t := by
  unfold Listed topUplinksKey
  rw [topOnDeviceKey_inj, topOnDeviceKey_inj]
  constructor
  · rintro (h | ⟨h, ht⟩ | ⟨h, -, ht⟩)
    · exact absurd h.symm (topKey_ne _ _ _)
    · exact ⟨Or.inl h.symm, ht⟩
    · exact ⟨Or.inr h, ht⟩
  · rintro ⟨h | h, ht⟩
    · exact Or.inr (Or.inl ⟨h.symm, ht⟩)
    · exact Or.inr (Or.inr ⟨h, rfl, ht⟩)

end listed

/-- What is known of the neighbours is so, and it is known of the port of the key. -/
structure Informed (texts : Dict String String) (peers : Dict String Bool) (k : String) : Prop where
  sound : ∀ p, peers.lookup p = some true → isPeer texts p = true
  complete : ∀ device port direction, PlainPort device port → direction ∈ directions →
    k = setKey (portKey device port) direction → isPeer texts (portKey device port) = true →
    peers.lookup (portKey device port) = some true

/-- **Step lemma**: one range of one key keeps the scoreboards in step. -/
theorem InStep.rankRange {r : Redis} (h : InStep r) {peers : Dict String Bool} {k : String}
    {d : PortHash} (hk : key_to_hash k = .ok d) (hpeers : Informed r.texts peers k)
    (score : Score) (t : ℕ) :
    InStep { r with boards := CapacityWorker.rankRange peers k d score r.boards t } where
  device := by
    intro d' t' k' hd'
    simp only [entry_rankRange, listed_topKey, listed_topOnDeviceKey hd', h.device d' t' k' hd']
    by_cases hk' : k' = k
    · subst hk'
      have hdevice : deviceOf k' = some d.device := by rw [deviceOf, hk]; rfl
      rw [hdevice]
      by_cases hd : d' = d.device
      · subst hd
        simp
      · have hne : ¬ some d.device = some d' := fun heq => hd (Option.some.inj heq).symm
        simp [hd, hne]
    · simp [hk']
  uplinks := by
    intro device port direction t' s hplain hdir hs
    simp only [entry_rankRange, listed_topKey, listed_topUplinksKey] at hs ⊢
    by_cases hkey : setKey (portKey device port) direction = k ∧ t' = t
    · obtain ⟨hkey, rfl⟩ := hkey
      have hhash := key_to_hash_setKey hplain (colon_notMem_direction hdir)
      rw [hkey, hk] at hhash
      obtain rfl := Except.ok.inj hhash
      simp only [hkey, and_true, true_and, if_true] at hs ⊢
      by_cases hlisted : device = "uplinks" ∨ peers.lookup (portKey device port) = some true
      · rw [if_pos hlisted] at hs
        refine ⟨?_, hlisted.imp_right (hpeers.sound _)⟩
        cases hscore : (score.rates.lookup t').join with
        | none =>
          rw [hscore, Option.none_or, ← hkey] at hs
          rw [Option.none_or, ← hkey]
          exact (h.uplinks device port direction t' s hplain hdir hs).1
        | some s' =>
          rw [hscore, Option.some_or] at hs
          rw [Option.some_or]
          exact hs
      · -- a port that was on the scoreboard of the uplinks is still known to have a neighbour
        rw [if_neg hlisted, ← hkey] at hs
        have hlink := (h.uplinks device port direction t' s hplain hdir hs).2
        exact absurd (hlink.imp_right (hpeers.complete device port direction hplain hdir hkey.symm))
          hlisted
    · have hold : entry r.boards (topUplinksKey t') (setKey (portKey device port) direction)
          = some s := by
        rw [if_neg (fun hand => hkey ⟨hand.1, hand.2.2⟩)] at hs
        exact hs
      rw [if_neg hkey]
      exact h.uplinks device port direction t' s hplain hdir hold

/-- The ranges of a key keep the scoreboards in step. -/
theorem InStep.foldl_rankRange {r : Redis} (h : InStep r) {peers : Dict String Bool} {k : String}
    {d : PortHash} (hk : key_to_hash k = .ok d) (hpeers : Informed r.texts peers k) (score : Score)
    (l : List ℕ) :
    InStep { r with boards := l.foldl (CapacityWorker.rankRange peers k d score) r.boards } := by
  induction l generalizing r with
  | nil => exact h
  | cons t l ih => exact ih (h.rankRange hk hpeers score t) hpeers

theorem InStep.rank {r : Redis} (h : InStep r) {peers : Dict String Bool}
    {scores : List (String × Score)} (hpeers : ∀ p ∈ scores, Informed r.texts peers p.1) :
    InStep { r with boards := (CapacityWorker.rank peers scores r.boards).1 } := by
  induction scores generalizing r with
  | nil => exact h
  | cons p scores ih =>
    obtain ⟨k, score⟩ := p
    unfold CapacityWorker.rank
    cases hk : key_to_hash k with
    | error e => exact h
    | ok d =>
      exact ih (h.foldl_rankRange hk (hpeers (k, score) List.mem_cons_self) score ranges)
        (fun p hp => hpeers p (List.mem_cons_of_mem _ hp))

/-! ## The worker keeps them so -/

/-- A worker that has its scoreboards in step, and has noted the port of each key that it is to
analyse. -/
structure Sound (w : Worker) : Prop where
  inStep : InStep w.redis
  noted : ∀ k ∈ w.post_analyse, ∃ p ∈ w.post_capacities, ∃ direction ∈ directions,
    k = setKey p direction

theorem isPeer_save_speed_meta (k : String) (data : Item) (texts : Dict String String)
    (p : String) : isPeer (save_speed_meta k data texts) p = isPeer texts p := by
  unfold save_speed_meta
  split_ifs
  · split
    · unfold isPeer
      rw [AList.lookup_insert_ne (capKey_ne_peerKey k p).symm]
    · rfl
  · rfl

theorem isPeer_save_layer1_meta (k : String) {texts : Dict String String} {p : String}
    (h : isPeer texts p = true) : isPeer (save_layer1_meta k texts) p = true := by
  unfold isPeer save_layer1_meta at *
  rw [Dict.lookup_insert_eq]
  split_ifs
  · rfl
  · exact h

/-- A neighbour that has become known stays known. -/
theorem InStep.of_texts {r : Redis} (h : InStep r) {texts : Dict String String} {sets : Store}
    (htexts : ∀ p, isPeer r.texts p = true → isPeer texts p = true) :
    InStep ⟨texts, sets, r.boards⟩ where
  device := h.device
  uplinks := fun device port direction t s hplain hdir hs => by
    obtain ⟨htop, hlink⟩ := h.uplinks device port direction t s hplain hdir hs
    exact ⟨htop, hlink.imp_right (htexts _)⟩

variable {env : Env}

theorem Sound.pre_bulk_process {w : Worker} (h : Sound w) (clock : ℚ) :
    Sound (pre_bulk_process clock w) :=
  ⟨h.inStep, fun _ hk => absurd hk List.not_mem_nil⟩

theorem Sound.save {w : Worker} (h : Sound w) (call : SaveCall) : Sound (save env call w).2 := by
  unfold CapacityWorker.save
  split
  · dsimp only
    split_ifs
    · refine ⟨h.inStep.of_texts (fun _ hp => hp), fun k hk => ?_⟩
      rcases List.mem_append.mp hk with hk | hk
      · obtain ⟨p, hp, hk⟩ := h.noted k hk
        exact ⟨p, List.mem_append_left _ hp, hk⟩
      · obtain ⟨direction, hdir, rfl⟩ := List.mem_map.mp hk
        exact ⟨_, List.mem_append_right _ List.mem_cons_self, direction, hdir, rfl⟩
    · exact ⟨h.inStep.of_texts (fun _ hp => hp), h.noted⟩
    · exact ⟨h.inStep.of_texts (fun p hp => (isPeer_save_speed_meta _ _ _ p).trans hp), h.noted⟩
    · exact ⟨h.inStep.of_texts (fun p hp => isPeer_save_layer1_meta _ hp), h.noted⟩
    · exact h
  · exact h

theorem lookup_get_layer1_peers (texts : Dict String String) (keys : List String) (p : String) :
    (get_layer1_peers texts keys).lookup p = if p ∈ keys then some (isPeer texts p) else none := by
  unfold get_layer1_peers
  by_cases hp : p ∈ keys
  · rw [if_pos hp]
    refine foldl_set (fun peers : Dict String Bool => peers.lookup p) hp
      (fun peers => AList.lookup_insert _) (fun peers k _ hne => ?_) ∅
    exact AList.lookup_insert_ne hne.symm
  · rw [if_neg hp]
    refine (foldl_keep (fun peers : Dict String Bool => peers.lookup p)
      (fun peers k hk => ?_) ∅).trans (AList.lookup_empty p)
    exact AList.lookup_insert_ne (fun heq => hp (heq ▸ hk))

/-- Only what is to be analysed has a score. -/
theorem mem_post_analyse {w : Worker} {p : String × Score} (hp : p ∈ scores env w) :
    p.1 ∈ w.post_analyse := by
  have hlook := Dict.mem_items.mp (env.order.mem_order.mp
    (show (p.1, p.2) ∈ scores env w from hp))
  by_contra hnot
  unfold get_utilisations at hlook
  rw [foldl_keep (fun scores : Dict String Score => scores.lookup p.1) (fun scores k hk => ?_) ∅,
    AList.lookup_empty] at hlook
  · cases hlook
  · split
    · rfl
    · exact AList.lookup_insert_ne (fun heq => hnot (heq ▸ hk))

theorem Sound.informed {w : Worker} (h : Sound w) {p : String × Score} (hp : p ∈ scores env w) :
    Informed w.redis.texts (get_layer1_peers w.redis.texts w.post_capacities) p.1 where
  sound := fun k hk => by
    rw [lookup_get_layer1_peers] at hk
    split_ifs at hk
    exact Option.some.inj hk
  complete := fun device port direction _ hdir heq hlink => by
    obtain ⟨k, hk, direction', hdir', heq'⟩ := h.noted p.1 (mem_post_analyse hp)
    obtain ⟨rfl, -⟩ := setKey_inj hdir' hdir (heq'.symm.trans heq)
    rw [lookup_get_layer1_peers, if_pos hk, hlink]

theorem Sound.post_bulk_process {w : Worker} (h : Sound w) :
    Sound (post_bulk_process env w).2 := by
  have hrank := h.inStep.rank (fun p (hp : p ∈ scores env w) => h.informed hp)
  unfold CapacityWorker.post_bulk_process
  dsimp only
  cases hr : CapacityWorker.rank (get_layer1_peers w.redis.texts w.post_capacities) (scores env w)
      w.redis.boards with
  | mk boards r =>
    rw [hr] at hrank
    cases r with
    | error e => exact ⟨hrank, h.noted⟩
    | ok u => exact ⟨hrank.of_texts (fun _ hp => hp), h.noted⟩

/-- A context of a message keeps the scoreboards in step. -/
theorem Sound.step {w : Worker} (h : Sound w) (b : Bulk) : Sound (step env w b) :=
  Feeder.runContext_invariant (fun _ _ _ _ _ hw => hw.pre_bulk_process _)
    (fun _ _ _ _ _ _ hw => hw.save _) (fun _ _ _ _ hw => hw.post_bulk_process) b.time b.meta'
    b.delta (b.context, b.items) h

variable {κ : Type} [DecidableEq κ] {kv : Context → κ}

/-- A message is worked on context by context. -/
theorem handle_eq (w : Worker) (input : (Context → ℚ) × Message) :
    handle env kv w input = Run.run (CapacityWorker.step env) w (bulks env kv input) := by
  have hcontexts : ∀ time m delta (ps : List (Context × List Item)) (w : Worker),
      (Feeder.runContexts (backend env input.1).hooks time m delta ps w).2
        = Run.run (CapacityWorker.step env) w
          (ps.map (fun p => ⟨input.1, time, m, delta, p.1, p.2⟩)) := by
    intro time m delta ps
    induction ps with
    | nil => exact fun _ => rfl
    | cons p ps ih => exact fun w => ih _
  unfold handle bulks Feeder.processTask
  split_ifs with hnone
  · rfl
  · simp only
    cases hext : Feeder.extract kv env.order true input.2 with
    | error e => rfl
    | ok r => exact hcontexts r.1 r.2.1 _ r.2.2 w

theorem run_handle (w : Worker) (inputs : List ((Context → ℚ) × Message)) :
    Run.run (handle env kv) w inputs
      = Run.run (CapacityWorker.step env) w (inputs.flatMap (bulks env kv)) := by
  induction inputs generalizing w with
  | nil => rfl
  | cons input inputs ih =>
    rw [Run.run_cons, ih, handle_eq, List.flatMap_cons, Run.run_append]

theorem Sound.handle {w : Worker} (h : Sound w) (input : (Context → ℚ) × Message) :
    Sound (handle env kv w input) := by
  rw [handle_eq]
  exact (Run.Always.of_step (fun _ b hw => hw.step b) h _).last

/-- **The scoreboards stay in step.**  For a worker that begins with its scoreboards in step,
whatever messages come, and whichever of them fail half way. -/
theorem scoreboards_inStep {r : Redis} (h : InStep r)
    (inputs : List ((Context → ℚ) × Message)) :
    Run.Always (CapacityWorker.handle env kv) (fun w => InStep w.redis) { redis := r } inputs :=
  (Run.Always.of_step (fun _ input hw => hw.handle input)
    (show Sound { redis := r } from ⟨h, fun _ hk => absurd hk List.not_mem_nil⟩) inputs).imp
    (fun _ hw => hw.inStep)

/-! ## Alerts -/

/-- What an alert about a key tells is so: the scores are on the scoreboard of all ports, one of
them is over the limit, and the port that the key is taken to be of has a neighbour or has none. -/
structure Stands (env : Env) (r : Redis) (k : String) (a : Alert) : Prop where
  named : ∃ i j rest,
    Text.split ':' k = i :: j :: a.device :: a.physical_port :: a.direction :: rest
  scores : ∀ t ∈ ranges, ∀ s, (a.data.lookup t).join = some s →
    entry r.boards (topKey t) k = some s
  exceeds : ∃ t ∈ ranges, ∃ s x, entry r.boards (topKey t) k = some s ∧ env.float s = some x
    ∧ 1 / 2 < x
  linked : ∀ b, a.has_peer = some b →
    b = isPeer r.texts (Driver.withoutText ":out" (Driver.withoutText ":in" k))

/-- When all keys could be taken apart, each has its scores on the scoreboard of all ports. -/
theorem entry_rank {peers : Dict String Bool} {scores : List (String × Score)} {boards : Boards}
    (hok : (rank peers scores boards).2 = .ok ()) (hnodup : (scores.map Prod.fst).Nodup) {t : ℕ}
    (ht : t ∈ ranges) :
    (∀ k, k ∉ scores.map Prod.fst →
        entry (rank peers scores boards).1 (topKey t) k = entry boards (topKey t) k)
      ∧ ∀ p ∈ scores, ∀ s, (p.2.rates.lookup t).join = some s →
        entry (rank peers scores boards).1 (topKey t) p.1 = some s := by
  induction scores generalizing boards with
  | nil => exact ⟨fun _ _ => rfl, fun p hp => absurd hp List.not_mem_nil⟩
  | cons p scores ih =>
    obtain ⟨k₀, score⟩ := p
    obtain ⟨hk₀, hrest⟩ := List.nodup_cons.mp hnodup
    unfold rank at hok ⊢
    cases hk : key_to_hash k₀ with
    | error e =>
      rw [hk] at hok
      cases hok
    | ok d =>
      rw [hk] at hok
      obtain ⟨hother, hmem⟩ := ih hok hrest
      refine ⟨fun k hnot => ?_, fun p hp s hs => ?_⟩
      · rw [List.map_cons, List.mem_cons, not_or] at hnot
        refine (hother k hnot.2).trans ?_
        refine foldl_keep (fun boards => entry boards (topKey t) k) (fun boards t' _ => ?_) boards
        rw [entry_rankRange, if_neg (fun hand => hnot.1 hand.1)]
      · rcases List.mem_cons.mp hp with rfl | hp
        · refine (hother k₀ hk₀).trans ?_
          refine foldl_set (fun boards => entry boards (topKey t) k₀) ht (fun boards => ?_)
            (fun boards t' _ hne => ?_) boards
          · rw [entry_rankRange, if_pos ⟨rfl, (listed_topKey t).mpr rfl⟩, hs, Option.some_or]
          · rw [entry_rankRange, if_neg (fun hand => hne ((listed_topKey t).mp hand.2).symm)]
        · exact hmem p hp s hs

/-- The alerts of a context stand when they are sent. -/
theorem alerts_post_bulk_process (w : Worker) :
    ∃ new, (post_bulk_process env w).2.alerts = w.alerts ++ new
      ∧ ∀ a ∈ new, ∃ k, Stands env (post_bulk_process env w).2.redis k a := by
  have hnodup : ((scores env w).map Prod.fst).Nodup := by
    refine ((env.order.perm _).map Prod.fst).nodup_iff.mpr ?_
    rw [Dict.items_map_fst]
    exact AList.keys_nodup _
  have hentry := fun t (ht : t ∈ ranges)
    (hok : (rank (get_layer1_peers w.redis.texts w.post_capacities) (scores env w)
      w.redis.boards).2 = .ok ()) => (entry_rank hok hnodup ht).2
  unfold post_bulk_process
  dsimp only
  cases hr : rank (get_layer1_peers w.redis.texts w.post_capacities) (scores env w)
      w.redis.boards with
  | mk boards r =>
    rw [hr] at hentry
    cases r with
    | error e => exact ⟨[], (List.append_nil _).symm, fun a ha => absurd ha List.not_mem_nil⟩
    | ok u =>
      refine ⟨_, rfl, fun a ha => ?_⟩
      obtain ⟨p, hp, ha⟩ := List.mem_flatMap.mp ha
      unfold process_alert at ha
      split_ifs at ha with hexceeds
      · split at ha
        · next i j device port direction rest hsplit =>
          obtain rfl := List.mem_singleton.mp ha
          refine ⟨p.1, ⟨i, j, rest, hsplit⟩, fun t ht s hs => hentry t ht rfl p hp s hs, ?_,
            fun b hb => ?_⟩
          · obtain ⟨t, ht, hover⟩ := List.any_eq_true.mp hexceeds
            obtain ⟨x, hx, hover⟩ := (Option.any_eq_true _ _).mp hover
            obtain ⟨s, hs, hx⟩ := Option.bind_eq_some_iff.mp hx
            exact ⟨t, ht, s, x, hentry t ht rfl p hp s hs, hx, of_decide_eq_true hover⟩
          · rw [lookup_get_layer1_peers] at hb
            split_ifs at hb
            exact (Option.some.inj hb).symm
        · cases ha
      · cases ha

theorem step_alerts (w : Worker) (b : Bulk) :
    ∃ new, (CapacityWorker.step env w b).alerts = w.alerts ++ new
      ∧ ∀ a ∈ new, ∃ k, Stands env (CapacityWorker.step env w b).redis k a := by
  -- nothing is sent before the end
  have hsaved := Feeder.runItems_invariant (h := (backend env b.clock).hooks)
    (I := fun w' => w'.alerts = w.alerts) (fun _ _ _ _ _ w' hw' => by
      refine Eq.trans ?_ hw'
      show (save env _ w').2.alerts = w'.alerts
      unfold save
      dsimp only
      repeat' split
      all_goals rfl) b.time b.meta' b.context b.delta b.items
    (show (pre_bulk_process (b.clock b.context) w).alerts = w.alerts from rfl)
  have hstep : CapacityWorker.step env w b = (post_bulk_process env
      (Feeder.runItems (backend env b.clock).hooks b.time b.meta' b.context b.delta b.items
        (pre_bulk_process (b.clock b.context) w)).2).2 := by
    unfold CapacityWorker.step Feeder.runContext
    dsimp only [Backend.hooks, backend]
    rw [if_pos rfl]
    generalize (Feeder.runItems _ b.time b.meta' b.context b.delta b.items _) = out
    cases post_bulk_process env out.2 with
    | mk r w' => cases r <;> rfl
  rw [hstep, ← hsaved]
  exact alerts_post_bulk_process _

/-- **Alerts tell what is on the scoreboards.**  Each alert of a worker was sent with a context of
some message, and stood then. -/
theorem alerts_stand {r : Redis} (inputs : List ((Context → ℚ) × Message)) {a : Alert}
    (ha : a ∈ (Run.run (handle env kv) { redis := r } inputs).alerts) :
    ∃ bs b bs' new, inputs.flatMap (bulks env kv) = bs ++ b :: bs'
      ∧ (Run.run (step env) { redis := r } (bs ++ [b])).alerts
        = (Run.run (step env) { redis := r } bs).alerts ++ new
      ∧ a ∈ new ∧ ∃ k, Stands env (Run.run (step env) { redis := r } (bs ++ [b])).redis k a := by
  rw [run_handle] at ha
  have hrun : ∀ (es : List Bulk) (w : Worker),
      a ∈ (Run.run (step env) w es).alerts → a ∈ w.alerts ∨ ∃ bs b bs' new, es = bs ++ b :: bs'
        ∧ (Run.run (step env) w (bs ++ [b])).alerts = (Run.run (step env) w bs).alerts ++ new
        ∧ a ∈ new ∧ ∃ k, Stands env (Run.run (step env) w (bs ++ [b])).redis k a := by
    intro es
    induction es with
    | nil => exact fun w ha => Or.inl ha
    | cons e es ih =>
      intro w ha
      rcases ih _ ha with ha | ⟨bs, b, bs', new, rfl, hk⟩
      · obtain ⟨new, hnew, hstands⟩ := step_alerts w e
        rw [hnew] at ha
        exact (List.mem_append.mp ha).imp_right
          (fun ha => ⟨[], e, es, new, rfl, hnew, ha, hstands a ha⟩)
      · exact Or.inr ⟨e :: bs, b, bs', new, rfl, hk⟩
  exact (hrun _ _ ha).resolve_left List.not_mem_nil

/-! ### A busy uplink -/

/-- The value of decimals without a sign. -/
def decimal (s : String) : Option ℚ :=
  let (i, _, f) := Text.partition '.' s
  (Text.int? i).bind (fun i => if f = "" then some (i : ℚ)
    else (Text.int? f).map (fun n => i + n / 10 ^ f.length))

def sampleEnv : Env where
  share := sixDecimals
  float := decimal

/-- A message about one port, and when it is worked on. -/
def portMessage (spec : String) (data : List (String × Value)) (time : ℤ) :
    (Context → ℚ) × Message where
  fst := fun _ => time + 10
  snd := {
    _meta := some { group := some "ports", spec := some spec,
                    keyName := some (.many ["physical_port"]) }
    context := some (Dict.ofList [("device", .str "swh-b050")])
    data := some (.list [Dict.ofList (("physical_port", .str "Gi1/1") :: data)])
    timestamp := some (.int time) }

/-- The port is found to be a fast one and an uplink, and is busy. -/
def busyInputs : List ((Context → ℚ) × Message) :=
  [portMessage "ports" [("physical", .bool true), ("speed", .int 1000)] 800,
    portMessage "layer1_peer" [] 800,
    portMessage "port_stats" [("octets_in", .int 0), ("octets_out", .int 0)] 900,
    portMessage "port_stats" [("octets_in", .int 9000000000), ("octets_out", .int 0)] 990]

def deviceText (c : Context) : String := ((c.lookup "device").map Value.toText).getD ""

/-- Scoreboards without scores are in step. -/
theorem inStep_empty : InStep {} where
  device := fun d t k _ => by
    have hnone : ∀ key, entry ∅ key k = none := fun _ => rfl
    rw [hnone, hnone, ite_self]
  uplinks := fun _ _ _ _ _ _ _ hs => nomatch hs

/-- The scoreboards of the busy uplink. -/
theorem scoreboards_inStep_busy :
    Run.Always (handle sampleEnv deviceText) (fun w => InStep w.redis) {} busyInputs :=
  scoreboards_inStep inStep_empty busyInputs

/-- The alert about the busy uplink. -/
theorem alerts_stand_busy :
    ∃ a ∈ (Run.run (handle sampleEnv deviceText) {} busyInputs).alerts,
      ∃ bs b bs' new, busyInputs.flatMap (bulks sampleEnv deviceText) = bs ++ b :: bs'
        ∧ (Run.run (step sampleEnv) {} (bs ++ [b])).alerts
          = (Run.run (step sampleEnv) {} bs).alerts ++ new
        ∧ a ∈ new ∧ ∃ k, Stands sampleEnv (Run.run (step sampleEnv) {} (bs ++ [b])).redis k a := by
  have hsent : (Run.run (handle sampleEnv deviceText) {} busyInputs).alerts ≠ [] := by
    decide +kernel
  exact ⟨_, List.head_mem hsent, alerts_stand busyInputs (List.head_mem hsent)⟩

end CapacityWorker
