/-
# What reaches the generic analysis

The messages of the pollers and storers go through a topic exchange, and `AnalyseWorker.setup`
binds its queue with one key for each half of a stanza.  The worker looks for the stanzas of
each message by its spec and group, after the feeder has split the group of a sub-group.

A message that some stanza asks for is delivered if its group was no sub-group, and the worker
does nothing with one that no stanza asks for.  A message for a sub-group is not delivered: its
key names the whole text of the group.  So the worker does, with what is delivered, just what it
does with all messages for whole groups.
-/
import Ptolemy.TopicExchange
import Ptolemy.AlertLifecycle
import Ptolemy.AlertLimits
import Ptolemy.GroupNames
import Ptolemy.Poll

namespace Text

/-- The pieces of a text around a point. -/
theorem split_point (s t : String) : split '.' (s ++ ("." ++ t)) = split '.' s ++ split '.' t := by
  unfold split
  rw [String.toList_append, String.toList_append,
    show ".".toList ++ t.toList = '.' :: t.toList from rfl, splitChars_append, List.map_append]

theorem split_join_point {l : List String} (h : l ≠ []) :
    split '.' (join "." l) = l.flatMap (split '.') := by
  induction l with
  | nil => exact absurd rfl h
  | cons s l ih =>
    cases l with
    | nil => rw [join, List.flatMap_singleton]
    | cons t l =>
      rw [join, split_point, ih (List.cons_ne_nil t l)]
      exact List.flatMap_cons.symm

/-- The first piece of a text. -/
theorem head?_splitChars (c : Char) (l : List Char) :
    (splitChars c l).head? = some (l.takeWhile (· ≠ c)) := by
  induction l with
  | nil => rfl
  | cons x l ih =>
    by_cases hx : x = c
    · rw [splitChars, if_pos hx, List.takeWhile_cons_of_neg (by simpa using hx), List.head?_cons]
    · rw [splitChars, if_neg hx, List.takeWhile_cons_of_pos (by simpa using hx)]
      cases hl : splitChars c l with
      | nil => exact absurd hl (splitChars_ne_nil c l)
      | cons p ps =>
        rw [hl, List.head?_cons] at ih
        rw [List.head?_cons, Option.some.inj ih]

/-- A character with no point before it is in the first piece. -/
theorem mem_takeWhile_of_notMem {a b : Char} (hne : a ≠ b) {l : List Char} (ha : a ∈ l)
    (hb : b ∉ l.takeWhile (· ≠ a)) : a ∈ l.takeWhile (· ≠ b) := by
  induction l with
  | nil => cases ha
  | cons x l ih =>
    by_cases hx : x = a
    · subst hx
      rw [List.takeWhile_cons_of_pos (by simpa using hne)]
      exact List.mem_cons_self
    · rw [List.takeWhile_cons_of_pos (by simpa using hx), List.mem_cons, not_or] at hb
      rw [List.takeWhile_cons_of_pos (by simpa using fun h => hb.1 h.symm)]
      exact List.mem_cons_of_mem x (ih ((List.mem_cons.mp ha).resolve_left (Ne.symm hx)) hb.2)

end Text

namespace AnalyseWorker

open TopicExchange (Pattern accepts)

/-! ## The exchange -/

/-- A word of a binding: `#` stands for any number of words, `*` for one. -/
def patternOf (w : String) : Pattern String :=
  if w = "#" then .many else if w = "*" then .one else .word w

/-- A topic exchange, as far as it is known: the words between the points are compared. -/
structure Broker : Type where
  routes : String → String → Bool
  topic : ∀ binding key, routes binding key
    = accepts ((Text.split '.' binding).map patternOf) (Text.split '.' key)

/-- The key of a message in the queue of the storers. -/
def keyOf (msg : Message) : String :=
  match msg._meta with
  | none => ""
  | some m =>
    match m.key, m.spec, m.group with
    | some key, _, _ => key
    | none, some spec, some group => ".spec." ++ spec ++ ".group." ++ group ++ "."
    | none, _, _ => ""

/-- A message with a spec and a group, for which the key was made, by a poller or when it was put
into the queue. -/
def Published (msg : Message) : Prop :=
  ∃ m spec group, msg._meta = some m ∧ m.spec = some spec ∧ m.group = some group
    ∧ (m.key = none ∨ ∃ taskId device, m.key = some (Poll.routingKey taskId spec group device))

/-- The message is for a whole group. -/
def Whole (msg : Message) : Prop := ∀ group ∈ msg._meta.bind Meta.group, '@' ∉ group.toList

instance : DecidablePred Whole := fun msg =>
  inferInstanceAs (Decidable (∀ group ∈ msg._meta.bind Meta.group, '@' ∉ group.toList))

/-! ## The worker -/

/-- The messages that one half of a stanza asks for. -/
structure Kind : Type where
  spec : String
  group : String
  deriving DecidableEq

/-- A stanza with the messages that its halves ask for. -/
structure Directive : Type where
  what : Kind
  when : Kind
  fields : Stanza

/-- A call of `process_alert`. -/
structure Alert : Type where
  name : String
  context : Context
  report : Report

/-- What the worker is configured with: the stanzas, the order in which it goes through them,
and the text of a context. -/
structure Config : Type 1 where
  env : Env
  kv : Context → String
  order : IterOrder
  analyse : Dict String Directive

/-- What redis holds, and the alerts so far. -/
structure Worker : Type where
  cells : Dict String Cell := ∅
  alerts : List Alert := []

def to_amqp_key (a : Kind) : String := "#." ++ a.spec ++ ".group." ++ a.group ++ ".#"

section worker

variable (cfg : Config)

/-- `self.keys`, as `setup` makes them. -/
def keys : List String :=
  ((cfg.analyse.items.flatMap (fun p => [to_amqp_key p.2.what, to_amqp_key p.2.when])).dedup
    ).mergeSort (· ≤ ·)

/-- The names of the stanzas one half of which asks for a message, in the order of `find`. -/
def find (half : Directive → Kind) (k : Kind) : List String :=
  cfg.order.order ((cfg.analyse.items.filter (fun p => half p.2 = k)).map Prod.fst)

def get_key (name : String) (context : Context) : String :=
  "pt:ana-g:" ++ name ++ ":"
    ++ String.ofList ((Text.replaceChar ' ' ',' (cfg.kv context)).toList.filter (· ≠ '\''))

/-- What redis holds after a key is set or deleted. -/
def put (key : String) (cell : Option Cell) (cells : Dict String Cell) : Dict String Cell :=
  cell.elim (cells.erase key) (fun c => AList.insert key c cells)

/-- The first half of a stanza. -/
def saveWhat (context : Context) (data : Item) (w : Worker) (name : String) : Worker :=
  match cfg.analyse.lookup name with
  | none => w
  | some d => { w with
      cells := put (get_key cfg name context) (process_what cfg.env d.fields
        (w.cells.lookup (get_key cfg name context)) (Dict.overlay data context)) w.cells }

/-- The second half of a stanza. -/
def saveWhen (context : Context) (data : Item) (w : Worker) (name : String) : Worker :=
  match cfg.analyse.lookup name with
  | none => w
  | some d =>
    match process_when cfg.env d.fields (w.cells.lookup (get_key cfg name context)) data with
    | none => w
    | some (cell, report) =>
        { cells := put (get_key cfg name context) cell w.cells
          alerts := w.alerts ++ report.toList.map (fun r => ⟨name, context, r⟩) }

def save (call : SaveCall) (w : Worker) : Except Exn Unit × Worker :=
  let k : Kind := ⟨call.meta'.spec, call.meta'.group⟩
  (.ok (), (find cfg Directive.when k).foldl (saveWhen cfg call.context call.data)
    ((find cfg Directive.what k).foldl (saveWhat cfg call.context call.data) w))

def backend : Backend Worker Unit where
  save := save cfg

/-- A message that is taken from the queue. -/
def handle (w : Worker) (msg : Message) : Worker :=
  match Feeder.processTask cfg.kv cfg.order true (backend cfg).hooks msg w with
  | .ok (_, w) => w
  | .error _ => w

/-- A message is published, or redis loses a key: it expires, or is deleted to free memory. -/
inductive Input : Type where
  | message (msg : Message)
  | lose (key : String)

def Worker.step (w : Worker) : Input → Worker
  | .message msg => handle cfg w msg
  | .lose key => { w with cells := w.cells.erase key }

/-- The exchange delivers the message to the queue of the worker. -/
def delivered (broker : Broker) : Input → Bool
  | .message msg => (keys cfg).any (fun binding => broker.routes binding (keyOf msg))
  | .lose _ => true

end worker

/-! ## Words -/

theorem words_routingKey (taskId : Value) (spec group device : String) :
    Text.split '.' (Poll.routingKey taskId spec group device)
      = [""] ++ ["spec"] ++ Text.split '.' spec ++ "group" :: (Text.split '.' group
        ++ ("device" :: (Text.split '.' device).reverse.flatMap (Text.split '.'))
        ++ "task_id" :: Text.split '.' taskId.toText ++ [""]) := by
  have hdevice : (Text.split '.' device).reverse ≠ [] := by
    simpa [Text.split] using Text.splitChars_ne_nil '.' device.toList
  have hkey : Poll.routingKey taskId spec group device = "" ++ ("." ++ (Text.join "."
      ["spec" ++ ("." ++ spec), "group" ++ ("." ++ group),
        "device" ++ ("." ++ Text.join "." (Text.split '.' device).reverse),
        "task_id" ++ ("." ++ taskId.toText)] ++ ("." ++ ""))) := by
    simp [Poll.routingKey, ← String.append_assoc]
  have hword : ∀ w ∈ ["", "spec", "group", "device", "task_id"], Text.split '.' w = [w] := by
    decide
  rw [hkey, Text.split_point, Text.split_point, Text.split_join_point (List.cons_ne_nil _ _)]
  simp only [List.flatMap_cons, List.flatMap_nil, Text.split_point, Text.split_join_point hdevice,
    hword "" (by simp), hword "spec" (by simp), hword "group" (by simp), hword "device" (by simp),
    hword "task_id" (by simp)]
  simp

/-- The words of the key of a message: those of its spec and its group are there, with the word
before each. -/
theorem words_keyOf {msg : Message} (h : Published msg) : ∃ m spec group rest,
    msg._meta = some m ∧ m.spec = some spec ∧ m.group = some group ∧ Text.split '.' (keyOf msg)
      = (["", "spec"] ++ Text.split '.' spec) ++ "group" :: (Text.split '.' group ++ rest) := by
  obtain ⟨m, spec, group, hm, hspec, hgroup, hkey | ⟨taskId, device, hkey⟩⟩ := h
  · refine ⟨m, spec, group, [""], hm, hspec, hgroup, ?_⟩
    have htext : keyOf msg = "" ++ ("." ++ ("spec" ++ ("." ++ (spec ++ ("." ++ ("group"
        ++ ("." ++ (group ++ ("." ++ ""))))))))) := by
      rw [keyOf, hm]
      simp [hkey, hspec, hgroup, ← String.append_assoc]
    have hword : ∀ w ∈ ["", "spec", "group"], Text.split '.' w = [w] := by decide
    rw [htext]
    simp only [Text.split_point, hword "" (by simp), hword "spec" (by simp),
      hword "group" (by simp)]
    simp
  · refine ⟨m, spec, group, "device" :: (Text.split '.' device).reverse.flatMap (Text.split '.')
      ++ "task_id" :: Text.split '.' taskId.toText ++ [""], hm, hspec, hgroup, ?_⟩
    have htext : keyOf msg = Poll.routingKey taskId spec group device := by
      rw [keyOf, hm]
      simp [hkey]
    rw [htext, words_routingKey]
    simp

theorem patterns_to_amqp_key (a : Kind) : (Text.split '.' (to_amqp_key a)).map patternOf
    = .many :: (Text.split '.' a.spec ++ "group" :: Text.split '.' a.group).map patternOf
      ++ [.many] := by
  have hkey : to_amqp_key a = "#" ++ ("." ++ (a.spec ++ ("." ++ ("group" ++ ("." ++ (a.group
      ++ ("." ++ "#"))))))) := by
    simp [to_amqp_key, ← String.append_assoc]
  have hword : ∀ w ∈ ["#", "group"], Text.split '.' w = [w] := by decide
  rw [hkey]
  simp only [Text.split_point, hword "#" (by simp), hword "group" (by simp)]
  simp [patternOf]

/-- Every word matches itself as a pattern. -/
theorem mem_language_patternOf (w : String) : [w] ∈ (patternOf w).language := by
  unfold patternOf
  split_ifs
  · exact Set.mem_univ [w]
  · exact List.length_singleton
  · exact Set.mem_singleton [w]

/-! ## What is delivered -/

section delivery

variable {cfg : Config} {broker : Broker} {msg : Message} {m : Meta} {spec group : String}

theorem mem_keys {key : String} : key ∈ keys cfg ↔ ∃ name d, cfg.analyse.lookup name = some d
    ∧ (key = to_amqp_key d.what ∨ key = to_amqp_key d.when) := by
  simp only [keys, List.mem_mergeSort, List.mem_dedup, List.mem_flatMap, List.mem_cons,
    List.not_mem_nil, or_false, Prod.exists, Dict.mem_items]

theorem mem_find {half : Directive → Kind} {k : Kind} {name : String} :
    name ∈ find cfg half k ↔ ∃ d, cfg.analyse.lookup name = some d ∧ half d = k := by
  simp only [find, cfg.order.mem_order, List.mem_map, List.mem_filter, decide_eq_true_eq,
    Prod.exists, Dict.mem_items, exists_and_right, exists_eq_right]

/-- A message that a stanza asks for by its spec and the text of its group is delivered. -/
theorem delivered_of_asked (h : Published msg) (hm : msg._meta = some m)
    (hspec : m.spec = some spec) (hgroup : m.group = some group) {a : Kind}
    (ha : to_amqp_key a ∈ keys cfg) (hask : a = ⟨spec, group⟩) :
    delivered cfg broker (.message msg) = true := by
  subst hask
  obtain ⟨m', spec', group', rest, hm', hspec', hgroup', hwords⟩ := words_keyOf h
  obtain rfl : m = m' := Option.some.inj (hm.symm.trans hm')
  obtain rfl : spec = spec' := Option.some.inj (hspec.symm.trans hspec')
  obtain rfl : group = group' := Option.some.inj (hgroup.symm.trans hgroup')
  refine List.any_eq_true.mpr ⟨_, ha, ?_⟩
  rw [broker.topic, patterns_to_amqp_key, TopicExchange.accepts_around, hwords]
  refine ⟨Text.split '.' spec ++ "group" :: Text.split '.' group, ⟨["", "spec"], rest, ?_⟩,
    TopicExchange.accepts_map mem_language_patternOf _⟩
  simp

/-- The group of a message for a whole group is that of its items. -/
theorem kind_of_extract {ttd : Bool} {time : Value} {m' : ItemMeta} {ctx : Context} {data : Data}
    (hext : Feeder._extract ttd msg = .ok (time, m', ctx, data)) (hwhole : Whole msg) :
    ∃ m, msg._meta = some m ∧ m.spec = some m'.spec ∧ m.group = some m'.group := by
  obtain ⟨m, group, hm, hgroup⟩ : ∃ m group, msg._meta = some m ∧ m.group = some group := by
    unfold Feeder._extract at hext
    cases hm : msg._meta with
    | none =>
      rw [hm] at hext
      cases hext
    | some m =>
      cases hgroup : m.group with
      | none =>
        rw [hm] at hext
        simp only [Option.elim_some, pure_bind, hgroup] at hext
        cases hext
      | some group => exact ⟨m, group, rfl, hgroup⟩
  have hsame : msg.withGroup group = msg := by
    unfold Message.withGroup
    rw [hm, Option.map_some, ← hgroup]
    cases msg
    cases hm
    rfl
  rw [← hsame] at hext
  obtain ⟨m₁, spec, ctx', hm₁, hspec, hctx⟩ := Feeder.entries_of_extract hext
  obtain rfl : m = m₁ := Option.some.inj (hm.symm.trans hm₁)
  rw [Feeder._extract_withGroup ttd hm hspec hctx, Except.bind_eq_ok] at hext
  obtain ⟨st, hst, hfinish⟩ := hext
  revert hst
  generalize (m.keyName.elim [] KeyName.names).foldl Feeder.takeKeyName
    (Feeder.startExtract msg ctx') = st₀
  intro hst
  cases hst₀ : st₀.this._meta with
  | none =>
    unfold Feeder.takeSubGroup Feeder.Extracting.withGroup Message.withGroup at hst
    rw [hst₀] at hst
    cases hst
  | some m₀ =>
    have hplain := hwhole group (Option.bind_eq_some_iff.mpr ⟨m, hm, hgroup⟩)
    rw [Feeder.takeSubGroup_plain hplain hst₀] at hst
    cases hst
    obtain ⟨⟨group', hgroup', rfl⟩, -⟩ := Feeder.finish_eq_ok_iff.mp hfinish
    have hset : (Feeder.Extracting.withGroup st₀ group).this._meta.bind Meta.group
        = some group := by
      unfold Feeder.Extracting.withGroup Message.withGroup
      rw [hst₀]
      rfl
    exact ⟨m, hm, hspec, hgroup.trans (hset.symm.trans hgroup')⟩

/-! ## What is handled -/

/-- The calls of `save` for a message. -/
def calls (cfg : Config) (msg : Message) : List SaveCall :=
  if msg.data.isNone || msg._meta.isNone then []
  else
    match Feeder.extract cfg.kv cfg.order true msg with
    | .ok (time, m, contexts) =>
        Feeder.callsOf time m (msg._meta.bind Meta.archiveAfter) contexts
    | .error _ => []

theorem runItems_backend (time : Value) (m : ItemMeta) (ctx : Context) (delta : Option Int)
    (items : List Item) (w : Worker) :
    (Feeder.runItems (backend cfg).hooks time m ctx delta items w).2
      = (items.map (Feeder.saveCall time m delta ctx)).foldl (fun w c => (save cfg c w).2) w := by
  induction items generalizing w with
  | nil => rfl
  | cons i is ih => exact ih (save cfg (Feeder.saveCall time m delta ctx i) w).2

theorem runContexts_backend (time : Value) (m : ItemMeta) (delta : Option Int)
    (ps : List (Context × List Item)) (w : Worker) :
    (Feeder.runContexts (backend cfg).hooks time m delta ps w).2
      = (Feeder.callsOf time m delta ps).foldl (fun w c => (save cfg c w).2) w := by
  induction ps generalizing w with
  | nil => rfl
  | cons p ps ih =>
    have hcalls : Feeder.callsOf time m delta (p :: ps)
        = p.2.map (Feeder.saveCall time m delta p.1) ++ Feeder.callsOf time m delta ps := by
      simp [Feeder.callsOf]
    rw [hcalls, List.foldl_append, ← runItems_backend, ← ih]
    rfl

theorem handle_eq (w : Worker) (msg : Message) :
    handle cfg w msg = (calls cfg msg).foldl (fun w c => (save cfg c w).2) w := by
  unfold handle calls Feeder.processTask
  split_ifs with hnone
  · rfl
  · simp only
    cases hext : Feeder.extract cfg.kv cfg.order true msg with
    | error e => rfl
    | ok r => exact runContexts_backend r.1 r.2.1 _ r.2.2 w

/-- The calls for a message for a whole group are about its spec and group. -/
theorem meta_of_mem_calls (hwhole : Whole msg) {c : SaveCall} (hc : c ∈ calls cfg msg) :
    ∃ m, msg._meta = some m ∧ m.spec = some c.meta'.spec ∧ m.group = some c.meta'.group := by
  unfold calls at hc
  split_ifs at hc with hnone
  · cases hc
  · cases hext : Feeder.extract cfg.kv cfg.order true msg with
    | error e =>
      rw [hext] at hc
      cases hc
    | ok r =>
      rw [hext] at hc
      obtain ⟨p, -, hp⟩ := List.mem_flatMap.mp hc
      obtain ⟨i, -, rfl⟩ := List.mem_map.mp hp
      unfold Feeder.extract at hext
      obtain ⟨r', hr', hext⟩ := Except.bind_eq_ok.mp hext
      obtain ⟨items, -, hext⟩ := Except.bind_eq_ok.mp hext
      cases hext
      exact kind_of_extract hr' hwhole

/-- A call that no stanza asks for changes nothing. -/
theorem save_of_not_asked {c : SaveCall}
    (h : ∀ half ∈ [Directive.what, Directive.when], ∀ name d, cfg.analyse.lookup name = some d →
      half d ≠ ⟨c.meta'.spec, c.meta'.group⟩) (w : Worker) : (save cfg c w).2 = w := by
  have hnone : ∀ half ∈ [Directive.what, Directive.when],
      find cfg half ⟨c.meta'.spec, c.meta'.group⟩ = [] := by
    refine fun half hhalf => List.eq_nil_iff_forall_not_mem.mpr (fun name hname => ?_)
    obtain ⟨d, hd, hk⟩ := mem_find.mp hname
    exact h half hhalf name d hd hk
  simp only [save, hnone Directive.what (by simp), hnone Directive.when (by simp), List.foldl_nil]

/-- What is not delivered would have changed nothing. -/
theorem step_of_not_delivered {i : Input} (hi : ∀ msg, i = .message msg → Published msg ∧ Whole msg)
    (h : delivered cfg broker i = false) (w : Worker) : Worker.step cfg w i = w := by
  cases i with
  | lose key => cases h
  | message msg =>
    obtain ⟨hpub, hwhole⟩ := hi msg rfl
    refine (handle_eq w msg).trans (List.foldlRecOn (motive := fun w' => w' = w) (calls cfg msg) _
      rfl (fun w' hw' c hc => ?_))
    subst hw'
    obtain ⟨m, hm, hspec, hgroup⟩ := meta_of_mem_calls hwhole hc
    refine save_of_not_asked (fun half hhalf name d hd heq => ?_) w'
    rw [delivered_of_asked hpub hm hspec hgroup (a := half d) ?_ heq] at h
    · cases h
    · rcases List.mem_cons.mp hhalf with rfl | hhalf
      · exact mem_keys.mpr ⟨name, d, hd, Or.inl rfl⟩
      · obtain rfl := List.mem_singleton.mp hhalf
        exact mem_keys.mpr ⟨name, d, hd, Or.inr rfl⟩

/-- The worker does with what is delivered what it does with all messages, if these are for whole
groups. -/
theorem run_delivered (inputs : List Input)
    (h : ∀ msg, .message msg ∈ inputs → Published msg ∧ Whole msg) (w : Worker) :
    Run.run (Worker.step cfg) w (inputs.filter (delivered cfg broker))
      = Run.run (Worker.step cfg) w inputs := by
  induction inputs generalizing w with
  | nil => rfl
  | cons i inputs ih =>
    have htail := ih (fun msg hmsg => h msg (List.mem_cons_of_mem i hmsg))
    cases hi : delivered cfg broker i with
    | true => rw [List.filter_cons_of_pos hi, Run.run_cons, Run.run_cons, htail]
    | false =>
      rw [List.filter_cons_of_neg (by simp [hi]), htail, Run.run_cons, step_of_not_delivered ?_ hi]
      rintro msg rfl
      exact h msg List.mem_cons_self

/-- A kind without words that stand for others, and for a whole group. -/
def Kind.Plain (a : Kind) : Prop :=
  (∀ w ∈ Text.split '.' a.spec ++ Text.split '.' a.group, w ≠ "#" ∧ w ≠ "*") ∧ '@' ∉ a.group.toList

instance : DecidablePred Kind.Plain := fun a => inferInstanceAs (Decidable
  ((∀ w ∈ Text.split '.' a.spec ++ Text.split '.' a.group, w ≠ "#" ∧ w ≠ "*")
    ∧ '@' ∉ a.group.toList))

/-- The word before the group is nowhere else in the key, and the group has no points, apart from
what follows it for a sub-group. -/
def Unambiguous (msg : Message) : Prop :=
  (Text.split '.' (keyOf msg)).count "group" = 1
    ∧ ∀ group ∈ msg._meta.bind Meta.group, '.' ∉ group.toList.takeWhile (· ≠ '@')

theorem routes_iff {a : Kind} (ha : a.Plain) {key : String} :
    broker.routes (to_amqp_key a) key = true
      ↔ Text.split '.' a.spec ++ "group" :: Text.split '.' a.group <:+: Text.split '.' key := by
  have hwords : (Text.split '.' a.spec ++ "group" :: Text.split '.' a.group).map patternOf
      = (Text.split '.' a.spec ++ "group" :: Text.split '.' a.group).map Pattern.word := by
    refine List.map_congr_left (fun w hw => ?_)
    have hplain : w ≠ "#" ∧ w ≠ "*" := by
      rcases List.mem_append.mp hw with hw | hw
      · exact ha.1 w (List.mem_append_left _ hw)
      · rcases List.mem_cons.mp hw with rfl | hw
        · decide
        · exact ha.1 w (List.mem_append_right _ hw)
    rw [patternOf, if_neg hplain.1, if_neg hplain.2]
  rw [broker.topic, patterns_to_amqp_key, hwords, TopicExchange.accepts_around_words]

/-- A message for a sub-group is delivered for no stanza. -/
theorem not_routes_of_subGroup (h : Published msg) (hun : Unambiguous msg) (hsub : ¬ Whole msg)
    {a : Kind} (ha : a.Plain) : broker.routes (to_amqp_key a) (keyOf msg) = false := by
  obtain ⟨m, spec, group, rest, hm, -, hgroup, hwords⟩ := words_keyOf h
  have hat : '@' ∈ group.toList := by
    by_contra hat
    refine hsub (fun group' hgroup' => ?_)
    rw [hm, Option.bind_some, hgroup, Option.mem_some_iff] at hgroup'
    exact hgroup' ▸ hat
  refine Bool.eq_false_iff.mpr (fun hroutes => ?_)
  obtain ⟨before, after, hinfix⟩ := (routes_iff ha).mp hroutes
  -- the only word `group` is the one before the group of the message
  have honce := hun.1
  rw [hwords, List.count_append, List.count_cons_self] at honce
  have hbefore : "group" ∉ ["", "spec"] ++ Text.split '.' spec :=
    List.count_eq_zero.mp (by omega)
  have hafter : "group" ∉ Text.split '.' group ++ rest := List.count_eq_zero.mp (by omega)
  have halign : (["", "spec"] ++ Text.split '.' spec) ++ "group" :: (Text.split '.' group ++ rest)
      = (before ++ Text.split '.' a.spec) ++ "group" :: (Text.split '.' a.group ++ after) := by
    rw [← hwords, ← hinfix]
    simp
  obtain ⟨-, -, hgroups⟩ := (List.append_cons_inj_of_notMem hbefore hafter).mp halign
  -- so its first piece is that of the group of the stanza
  have hhead := congrArg List.head? hgroups
  have hpiece : ∀ (g : String) (l : List String), (Text.split '.' g ++ l).head?
      = some (String.ofList (g.toList.takeWhile (· ≠ '.'))) := by
    intro g l
    rw [List.head?_append, Text.split, List.head?_map, Text.head?_splitChars]
    rfl
  rw [hpiece, hpiece, Option.some.injEq, String.ofList_inj] at hhead
  have hfirst := Text.mem_takeWhile_of_notMem (by decide) hat 
    (hun.2 group (Option.bind_eq_some_iff.mpr ⟨m, hm, hgroup⟩))
  rw [hhead] at hfirst
  exact ha.2 ((List.takeWhile_sublist _).mem hfirst)

/-- An input that is no message for a sub-group. -/
def Input.isWhole : Input → Bool
  | .message msg => decide (Whole msg)
  | .lose _ => true

/-- **What reaches the analysis.**  Of the messages that are published the worker does, with those
that the exchange delivers, just what it does with those for whole groups. -/
theorem run_delivered_whole (broker : Broker) {inputs : List Input}
    (hkinds : ∀ name d, cfg.analyse.lookup name = some d → d.what.Plain ∧ d.when.Plain)
    (hpub : ∀ msg, .message msg ∈ inputs → Published msg ∧ Unambiguous msg) (w : Worker) :
    Run.run (Worker.step cfg) w (inputs.filter (delivered cfg broker))
      = Run.run (Worker.step cfg) w (inputs.filter Input.isWhole) := by
  have hsub : ∀ i ∈ inputs, delivered cfg broker i = true → i.isWhole = true := by
    intro i hi hdel
    cases i with
    | lose key => rfl
    | message msg =>
      refine decide_eq_true (Decidable.byContradiction (fun hwhole => ?_))
      obtain ⟨key, hkey, hroutes⟩ := List.any_eq_true.mp hdel
      obtain ⟨name, d, hd, heq⟩ := mem_keys.mp hkey
      obtain ⟨hp, hun⟩ := hpub msg hi
      rcases heq with rfl | rfl
      · rw [not_routes_of_subGroup hp hun hwhole (hkinds name d hd).1] at hroutes
        cases hroutes
      · rw [not_routes_of_subGroup hp hun hwhole (hkinds name d hd).2] at hroutes
        cases hroutes
  have hfilter : inputs.filter (delivered cfg broker)
      = (inputs.filter Input.isWhole).filter (delivered cfg broker) := by
    rw [List.filter_filter]
    refine List.filter_congr (fun i hi => ?_)
    cases hdel : delivered cfg broker i with
    | true => rw [hsub i hi hdel]; rfl
    | false => rfl
  rw [hfilter]
  refine run_delivered _ (fun msg hmsg => ?_) w
  obtain ⟨hmem, hwhole⟩ := List.mem_filter.mp hmsg
  exact ⟨(hpub msg hmem).1, of_decide_eq_true hwhole⟩

end delivery

/-! ### Pings -/

/-- An exchange that does what is known of one. -/
def topicBroker : Broker where
  routes := fun binding key => accepts ((Text.split '.' binding).map patternOf) (Text.split '.' key)
  topic := fun _ _ => rfl

/-- The stanza for devices that do not answer. -/
def unreachable : Directive where
  what := ⟨"reachability", "ping"⟩
  when := ⟨"reachability", "ping"⟩
  fields := lossStanza (.ge (.finite 100))

def pingConfig : Config where
  env := intEnv
  kv := fun c => ((c.lookup "device").map Value.toText).getD ""
  order := .stored
  analyse := Dict.ofList [("devices.unreachable", unreachable)]

/-- The loss of packets to a device, under a group. -/
def pingMessage (group : String) (loss : ℤ) : Message where
  _meta := some { group := some group, spec := some "reachability",
                  key := some (Poll.routingKey (.int 7) "reachability" group "swh-b050.slac") }
  context := some (Dict.ofList [("device", .str "swh-b050.slac")])
  data := some (.list [Dict.ofList [("loss", .int loss)]])
  timestamp := some (.int 100)

theorem plain_unreachable {name : String} {d : Directive}
    (h : pingConfig.analyse.lookup name = some d) : d = unreachable := by
  have hmem : (name, d) ∈ [("devices.unreachable", unreachable)] := Dict.mem_items.mpr h
  cases List.mem_singleton.mp hmem
  rfl

theorem published_pingMessage (group : String) (loss : ℤ) : Published (pingMessage group loss) :=
  ⟨_, _, _, rfl, rfl, rfl, Or.inr ⟨_, _, rfl⟩⟩

theorem unambiguous_pingMessage {group : String} (hgroup : group ∈ ["ping", "ping@vlan=3"])
    (loss : ℤ) : Unambiguous (pingMessage group loss) := by
  have hwords : ∀ g ∈ ["ping", "ping@vlan=3"],
      (Text.split '.' (Poll.routingKey (.int 7) "reachability" g "swh-b050.slac")).count "group" = 1
        ∧ '.' ∉ g.toList.takeWhile (· ≠ '@') := by
    decide
  refine ⟨(hwords group hgroup).1, fun g hg => ?_⟩
  cases (show some group = some g from hg)
  exact (hwords group hgroup).2

/-- The loss for one VLAN is not seen. -/
theorem run_delivered_whole_pings :
    Run.run (Worker.step pingConfig) {} ([.message (pingMessage "ping@vlan=3" 100),
        .message (pingMessage "ping" 100)].filter (delivered pingConfig topicBroker))
      = Run.run (Worker.step pingConfig) {} [.message (pingMessage "ping" 100)] := by
  refine run_delivered_whole topicBroker (fun name d hd => ?_) (fun msg hmsg => ?_) {}
  · obtain rfl := plain_unreachable hd
    constructor <;> decide
  · rcases List.mem_cons.mp hmsg with heq | hmsg
    · cases heq
      exact ⟨published_pingMessage _ _, unambiguous_pingMessage (by decide) _⟩
    · cases List.mem_singleton.mp hmsg
      exact ⟨published_pingMessage _ _, unambiguous_pingMessage (by decide) _⟩

end AnalyseWorker
