/-
# The rows fetched ahead of a batch

`pre_msg_process` sorts the messages of a batch by the partitions that they belong to, and asks each
partition once for the rows that agree with one of its messages about the configured fields.  The
rows enter the cache under their keys.

The list of what to ask a table for is made in a branch for names that are not that of the table
itself.  It is missing for a table without partitions, and for a context without the field by which
the table is split.
-/
import Ptolemy.PostgresLiveRows
import Ptolemy.PostgresPartitions

namespace Postgres

variable {κ : Type} (cfg : Config κ) (spec group : String)

/-! ## The batch, and what should be in the cache -/

/-- The messages of a batch are of one spec and group, whose table is configured. -/
structure OneTable (msg : List Message) : Prop where
  ne : msg ≠ []
  configured : _tableName spec group ∈ cfg.preMsgProcessTables
  same : ∀ m ∈ msg, m._meta.bind Meta.spec = some spec ∧ m._meta.bind Meta.group = some group
    ∧ m.context.isSome

/-- The configured fields that a message carries. -/
def carried (m : Message) : Doc :=
  flatten ((m.context.getD ∅).restrict (fun k => k ∈ (keyFields cfg (_tableName spec group)).1))

/-- The table that a message belongs to, as far as its context says. -/
def tableOf (m : Message) : Option String :=
  (tableName cfg spec group (m.context.getD ∅) []).toOption.map Prod.fst

/-- What the batch is to ask each table for. -/
def askedOf (msg : List Message) : Except Exn (Dict String (List Doc)) :=
  prefetchParts cfg (_tableName spec group) (keyFields cfg (_tableName spec group)).1 msg

/-- The rows that a statement on a table reaches and that agree with a message of the batch. -/
def wantedRows (db : Db) (msg : List Message) (t : String) : List Row :=
  db.rows.filter (fun r => db.isIn t r
    && msg.any (fun m => Db.matchesContext (carried cfg spec group m) r))

/-- **The cache is filled**: nothing is raised, and when the queries succeed each wanted row of the
tables that were asked is in the cache under its key, once for each table, and nothing else is. -/
structure Prefetched [DecidableEq κ] (msg : List Message) (s : Storer κ) : Prop where
  ok : (preMsgProcess cfg msg s).1 = .ok ()
  cached : ∀ parts, askedOf cfg spec group msg = .ok parts →
    (∀ p ∈ parts.items, ∃ rows, s.db.query cfg.order p.1 p.2 = .ok rows) →
      (∀ t ∈ parts, ∀ r ∈ wantedRows cfg spec group s.db msg t,
        ∃ key, rowKey cfg (_tableName spec group) r.context = some key)
      ∧ ∀ key, (((preMsgProcess cfg msg s).2.cache.lookup key).getD []).Perm
        (parts.keys.flatMap (fun t => (wantedRows cfg spec group s.db msg t).filter
          (fun r => rowKey cfg (_tableName spec group) r.context = some key)))

/-- A batch for which the cache is filled: the table is split by a field that all messages carry,
with a value that can be hashed where it has to be; and unless a message carries none of the
configured fields, the wanted rows have keys and are wanted by a message of their own table. -/
structure Prefetchable (msg : List Message) (s : Storer κ) : Prop where
  split : ∃ field, cfg.partitions.lookup (_tableName spec group) = some field
    ∧ ∀ m ∈ msg, ∃ v w, (m.context.getD ∅).lookup field = some v
      ∧ contextSuffix cfg (_tableName spec group) v = .ok w
  own : (∀ m ∈ msg, (carried cfg spec group m).items ≠ []) →
    ∀ m ∈ msg, ∀ t, tableOf cfg spec group m = some t → ∀ r ∈ wantedRows cfg spec group s.db msg t,
      (∃ key, rowKey cfg (_tableName spec group) r.context = some key)
      ∧ ∃ m' ∈ msg, tableOf cfg spec group m' = some t
        ∧ Db.matchesContext (carried cfg spec group m') r = true

/-! ## The parts of a batch -/

variable {cfg spec group}

/-- A message belongs to a partition if its context has the field by which the table is split. -/
theorem tableOf_ne_iff {m : Message} :
    (∃ t, tableOf cfg spec group m = some t ∧ t ≠ _tableName spec group)
      ↔ ∃ field v w, cfg.partitions.lookup (_tableName spec group) = some field
        ∧ (m.context.getD ∅).lookup field = some v
        ∧ contextSuffix cfg (_tableName spec group) v = .ok w := by
  constructor
  · rintro ⟨t, ht, hne⟩
    unfold tableOf at ht
    cases hp : cfg.partitions.lookup (_tableName spec group) with
    | none =>
      unfold tableName at ht
      simp only [hp] at ht
      exact absurd (Option.some.inj ht).symm hne
    | some field =>
      cases hv : (m.context.getD ∅).lookup field with
      | none =>
        unfold tableName at ht
        simp only [hp, hv] at ht
        split_ifs at ht with hempty
        · exact absurd (Option.some.inj ht).symm hne
        · cases ht
      | some v =>
        rw [tableName_of_context hp hv] at ht
        cases hw : contextSuffix cfg (_tableName spec group) v with
        | error e =>
          rw [hw] at ht
          cases ht
        | ok w => exact ⟨field, v, w, rfl, hv, hw⟩
  · rintro ⟨field, v, w, hp, hv, hw⟩
    refine ⟨_tableName spec group ++ "__" ++ field ++ w, ?_, fun heq => ?_⟩
    · rw [tableOf, tableName_of_context hp hv, hw]
      rfl
    · have hlength := congrArg String.length heq
      rw [String.length_append, String.length_append, String.length_append] at hlength
      have htwo : "__".length = 2 := rfl
      omega

variable (cfg spec group) in
/-- The lists of what to ask for, after some of the messages. -/
structure Parted (parts : Dict String (List Doc)) (done : List Message) : Prop where
  asked : ∀ t, (parts.lookup t).getD []
    = (done.filter (fun m => tableOf cfg spec group m = some t)).map (carried cfg spec group)
  mem : ∀ t ∈ parts, ∃ m ∈ done, tableOf cfg spec group m = some t

/-- One more message. -/
theorem Parted.snoc {parts : Dict String (List Doc)} {done : List Message}
    (h : Parted cfg spec group parts done) {m : Message} {t : String}
    (ht : tableOf cfg spec group m = some t) :
    Parted cfg spec group (parts.insert t ((parts.lookup t).getD [] ++ [carried cfg spec group m]))
      (done ++ [m]) where
  asked := by
    intro t'
    rw [Dict.lookup_insert_eq, List.filter_append, List.map_append]
    by_cases heq : t' = t
    · rw [if_pos heq, Option.getD_some, h.asked t, heq,
        List.filter_cons_of_pos (by simpa using ht), List.filter_nil, List.map_singleton]
    · have hnot : ¬ tableOf cfg spec group m = some t' := fun h' =>
        heq (Option.some.inj (h'.symm.trans ht))
      rw [if_neg heq, h.asked t', List.filter_cons_of_neg (by simpa using hnot), List.filter_nil,
        List.map_nil, List.append_nil]
  mem := by
    intro t' hmem
    rcases (AList.mem_insert _).mp hmem with rfl | hmem
    · exact ⟨m, List.mem_append_right _ List.mem_cons_self, ht⟩
    · obtain ⟨m', hm', ht'⟩ := h.mem t' hmem
      exact ⟨m', List.mem_append_left _ hm', ht'⟩

/-- One turn of the loop over the messages. -/
theorem turn_eq {m : Message} (hspec : m._meta.bind Meta.spec = some spec)
    (hgroup : m._meta.bind Meta.group = some group) (hcontext : m.context.isSome)
    (parts : Dict String (List Doc)) :
    (do
      let meta' ← m._meta.elim (throw (.keyError "_meta")) pure
      let spec' ← meta'.spec.elim (throw (.keyError "spec")) pure
      let group' ← meta'.group.elim (throw (.keyError "group")) pure
      let context ← m.context.elim (throw (.keyError "context")) pure
      let (name, _) ← tableName cfg spec' group' context []
      let this := flatten (context.restrict
        (fun k => k ∈ (keyFields cfg (_tableName spec group)).1))
      if name = _tableName spec group then throw (.keyError name)
      else pure (parts.insert name (((parts.lookup name).getD []) ++ [this])))
      = ((tableName cfg spec group (m.context.getD ∅) []).bind (fun p =>
        if p.1 = _tableName spec group then throw (.keyError p.1)
        else pure (parts.insert p.1 ((parts.lookup p.1).getD [] ++ [carried cfg spec group m])))
          : Except Exn (Dict String (List Doc))) := by
  unfold carried
  cases hmeta : m._meta with
  | none =>
    rw [hmeta] at hspec
    cases hspec
  | some meta' =>
    rw [hmeta, Option.bind_some] at hspec hgroup
    obtain ⟨context, hc⟩ := Option.isSome_iff_exists.mp hcontext
    simp only [Option.elim_some, pure_bind, hspec, hgroup, hc, Option.getD_some]
    rfl

/-- Every message of a batch that is sorted into parts belongs to a partition. -/
theorem parted_of_ok {msg : List Message} (hmsg : OneTable cfg spec group msg)
    {parts : Dict String (List Doc)}
    (h : askedOf cfg spec group msg = .ok parts) :
    (∀ m ∈ msg, ∃ t, tableOf cfg spec group m = some t ∧ t ≠ _tableName spec group)
      ∧ Parted cfg spec group parts msg := by
  let I : List Message → Dict String (List Doc) → Prop := fun l b => ∃ done, msg = done ++ l
    ∧ (∀ m ∈ done, ∃ t, tableOf cfg spec group m = some t ∧ t ≠ _tableName spec group)
    ∧ Parted cfg spec group b done
  obtain ⟨done, hdone, hall, hparted⟩ : I [] parts := by
    refine Except.foldlM_rest (I := I) (fun m l b b' hI hturn => ?_)
      ⟨[], rfl, fun m hm => absurd hm List.not_mem_nil, fun t => ?_, fun t ht => ?_⟩ h
    · obtain ⟨done, hdone, hall, hparted⟩ := hI
      obtain ⟨hspec, hgroup, hcontext⟩ := hmsg.same m
        (hdone ▸ List.mem_append_right done List.mem_cons_self)
      replace hturn := (turn_eq hspec hgroup hcontext b).symm.trans hturn
      have htable : tableOf cfg spec group m
          = (tableName cfg spec group (m.context.getD ∅) []).toOption.map Prod.fst := rfl
      cases hname : tableName cfg spec group (m.context.getD ∅) [] with
      | error e =>
        rw [hname] at hturn
        cases hturn
      | ok p =>
        rw [hname] at hturn htable
        replace hturn : (if p.1 = _tableName spec group then throw (.keyError p.1)
          else pure (b.insert p.1 ((b.lookup p.1).getD [] ++ [carried cfg spec group m]))
            : Except Exn (Dict String (List Doc))) = .ok b' := hturn
        split_ifs at hturn with hsame
        cases hturn
        refine ⟨done ++ [m], by rw [hdone, List.append_assoc]; rfl, fun m' hm' => ?_,
          hparted.snoc htable⟩
        rcases List.mem_append.mp hm' with hm' | hm'
        · exact hall m' hm'
        · rw [List.mem_singleton.mp hm']
          exact ⟨p.1, htable, hsame⟩
    · rfl
    · exact absurd ht (AList.notMem_empty t)
  rw [List.append_nil] at hdone
  rw [hdone]
  exact ⟨hall, hparted⟩

/-- A batch whose messages belong to partitions is sorted into parts. -/
theorem exists_parts {msg : List Message} (hmsg : OneTable cfg spec group msg)
    (hall : ∀ m ∈ msg, ∃ t, tableOf cfg spec group m = some t ∧ t ≠ _tableName spec group) :
    ∃ parts, askedOf cfg spec group msg = .ok parts := by
  have htotal : ∃ parts, askedOf cfg spec group msg = .ok parts
      ∧ ∀ m ∈ ([] : List Message), m ∈ msg := by
    refine Except.foldlM_total (I := fun l _ => ∀ m ∈ l, m ∈ msg) (fun m l b hI => ?_)
      (fun m hm => hm)
    obtain ⟨hspec, hgroup, hcontext⟩ := hmsg.same m (hI m List.mem_cons_self)
    obtain ⟨t, ht, hne⟩ := hall m (hI m List.mem_cons_self)
    refine ⟨b.insert t ((b.lookup t).getD [] ++ [carried cfg spec group m]),
      (turn_eq hspec hgroup hcontext b).trans ?_, fun m' hm' => hI m' (List.mem_cons_of_mem m hm')⟩
    unfold tableOf at ht
    cases hname : tableName cfg spec group (m.context.getD ∅) [] with
    | error e =>
      rw [hname] at ht
      cases ht
    | ok p =>
      rw [hname] at ht
      cases ht
      exact if_neg hne
  obtain ⟨parts, hparts, -⟩ := htotal
  exact ⟨parts, hparts⟩

/-! ## The rows enter the cache -/

section Cache

variable [DecidableEq κ]

/-- Rows that all have keys enter the cache under them, in their order. -/
theorem cacheRows_keyed {fields : List String} {missingOk : Bool} {rows : List Row}
    (cache : Dict κ (List Row))
    (h : ∀ r ∈ rows, ∃ key, (cfg.dictToKv fields missingOk r.context).toOption = some key) :
    ∃ cache', cacheRows cfg fields missingOk rows cache = (.ok (), cache')
      ∧ ∀ key, (cache'.lookup key).getD [] = (cache.lookup key).getD [] ++ rows.filter
        (fun r => (cfg.dictToKv fields missingOk r.context).toOption = some key) := by
  induction rows generalizing cache with
  | nil => exact ⟨cache, rfl, fun key => (List.append_nil _).symm⟩
  | cons d ds ih =>
    obtain ⟨k, hk⟩ := h d List.mem_cons_self
    have hkey : cfg.dictToKv fields missingOk d.context = .ok k := by
      cases hd : cfg.dictToKv fields missingOk d.context with
      | error e =>
        rw [hd] at hk
        cases hk
      | ok k' =>
        rw [hd] at hk
        cases hk
        rfl
    obtain ⟨cache', hcache, hlookup⟩ := ih (cache.insert k ((cache.lookup k).getD [] ++ [d]))
      (fun r hr => h r (List.mem_cons_of_mem d hr))
    refine ⟨cache', ?_, fun key => ?_⟩
    · rw [cacheRows, hkey]
      exact hcache
    · rw [hlookup, Dict.lookup_insert_eq]
      by_cases heq : key = k
      · rw [if_pos heq, List.filter_cons_of_pos (by simp [hkey, heq, Except.toOption]), heq,
          Option.getD_some, List.append_assoc]
        rfl
      · rw [if_neg heq, List.filter_cons_of_neg
          (by simpa [hkey, Except.toOption] using Ne.symm heq)]

/-- The rows that a query finds. -/
def found (o : IterOrder) (db : Db) (p : String × List Doc) : List Row :=
  o.order (db.rows.filter (fun r => db.isIn p.1 r && p.2.any (Db.matchesContext · r)))

omit [DecidableEq κ] in
/-- A query succeeds if it is given a field in each of its contexts. -/
theorem query_eq_ok_iff {o : IterOrder} {db : Db} {p : String × List Doc} {rows : List Row} :
    db.query o p.1 p.2 = .ok rows ↔ (∀ c ∈ p.2, c.items ≠ []) ∧ rows = found o db p := by
  have hany : p.2.any (fun c => c.items.isEmpty) = true ↔ ∃ c ∈ p.2, c.items = [] := by
    simp only [List.any_eq_true, List.isEmpty_iff]
  unfold Db.query
  constructor
  · intro h
    split_ifs at h with hempty
    cases h
    exact ⟨fun c hc hnil => hempty (hany.mpr ⟨c, hc, hnil⟩), rfl⟩
  · rintro ⟨hne, rfl⟩
    rw [if_neg (fun h => by
      obtain ⟨c, hc, hnil⟩ := hany.mp h
      exact hne c hc hnil)]
    rfl

/-- **The queries of a batch**: when all succeed and find rows with keys only, the cache has what
they find, one query after the other. -/
theorem cache_foldl_prefetchTable {root : String} {l : List (String × List Doc)} {s : Storer κ}
    (hfields : s.contextFields = (keyFields cfg root).1)
    (hmissing : s.contextFieldsMissingOk = (keyFields cfg root).2)
    (hquery : ∀ p ∈ l, ∀ c ∈ p.2, c.items ≠ [])
    (hkeyed : ∀ p ∈ l, ∀ r ∈ found cfg.order s.db p, ∃ key, rowKey cfg root r.context = some key)
    (key : κ) :
    ((l.foldl (prefetchTable cfg) s).cache.lookup key).getD [] = (s.cache.lookup key).getD []
      ++ l.flatMap (fun p => (found cfg.order s.db p).filter
        (fun r => rowKey cfg root r.context = some key)) := by
  induction l generalizing s with
  | nil => exact (List.append_nil _).symm
  | cons p l ih =>
    obtain ⟨cache', hcache, hlookup⟩ := cacheRows_keyed s.cache (hkeyed p List.mem_cons_self)
    have hstep : prefetchTable cfg s p = { s with
        cache := cache'
        preMsgQueried := s.preMsgQueried || !(found cfg.order s.db p).isEmpty } := by
      unfold prefetchTable
      rw [query_eq_ok_iff.mpr ⟨hquery p List.mem_cons_self, rfl⟩, hfields, hmissing]
      simp only
      rw [hcache]
    rw [List.foldl_cons, hstep]
    have hrest := ih (s := { s with
        cache := cache'
        preMsgQueried := s.preMsgQueried || !(found cfg.order s.db p).isEmpty })
      hfields hmissing (fun q hq => hquery q (List.mem_cons_of_mem p hq))
      (fun q hq => hkeyed q (List.mem_cons_of_mem p hq))
    rw [hrest, List.flatMap_cons, ← List.append_assoc]
    exact congrArg (· ++ _) (hlookup key)

end Cache

/-! ## Rows that are wanted, and rows that are found -/

/-- Of lists that are parts of others and together as long as these, each is the whole of its
own. -/
theorem eq_of_flatMap_length {α β : Type} {f g : α → List β} {l : List α}
    (h : ∀ a ∈ l, (f a).Sublist (g a)) (hlength : (l.flatMap g).length ≤ (l.flatMap f).length) :
    ∀ a ∈ l, f a = g a := by
  have hle : ∀ l' : List α, (∀ a ∈ l', a ∈ l) → (l'.flatMap f).length ≤ (l'.flatMap g).length := by
    intro l'
    induction l' with
    | nil => exact fun _ => le_rfl
    | cons a l' ih =>
      intro hl'
      have ha := (h a (hl' a List.mem_cons_self)).length_le
      have hrest := ih (fun b hb => hl' b (List.mem_cons_of_mem a hb))
      rw [List.flatMap_cons, List.flatMap_cons, List.length_append, List.length_append]
      omega
  induction l with
  | nil => exact fun a ha => absurd ha List.not_mem_nil
  | cons b l ih =>
    have hb := (h b List.mem_cons_self).length_le
    have hl := hle l (fun a ha => List.mem_cons_of_mem b ha)
    rw [List.flatMap_cons, List.flatMap_cons, List.length_append, List.length_append] at hlength
    intro a ha
    rcases List.mem_cons.mp ha with rfl | ha
    · exact (h a List.mem_cons_self).eq_of_length_le (by omega)
    · exact ih (fun c hc => h c (List.mem_cons_of_mem b hc)) (by omega)
        (fun l' hl' => hle l' (fun c hc => List.mem_cons_of_mem b (hl' c hc))) a ha

variable (cfg spec group) in
/-- The rows of a table that are wanted by a message that belongs to it. -/
def ownRows (db : Db) (msg : List Message) (t : String) : List Row :=
  db.rows.filter (fun r => db.isIn t r && msg.any (fun m =>
    decide (tableOf cfg spec group m = some t) && Db.matchesContext (carried cfg spec group m) r))

variable {msg : List Message} {parts : Dict String (List Doc)} {db : Db} {t : String} {r : Row}

theorem mem_wantedRows : r ∈ wantedRows cfg spec group db msg t
    ↔ r ∈ db.rows ∧ db.isIn t r = true
      ∧ ∃ m ∈ msg, Db.matchesContext (carried cfg spec group m) r = true := by
  rw [wantedRows, List.mem_filter, Bool.and_eq_true_iff, List.any_eq_true]

theorem mem_ownRows : r ∈ ownRows cfg spec group db msg t
    ↔ r ∈ db.rows ∧ db.isIn t r = true
      ∧ ∃ m ∈ msg, tableOf cfg spec group m = some t
        ∧ Db.matchesContext (carried cfg spec group m) r = true := by
  simp only [ownRows, List.mem_filter, Bool.and_eq_true_iff, List.any_eq_true, decide_eq_true_eq]

theorem ownRows_sublist : (ownRows cfg spec group db msg t).Sublist
    (wantedRows cfg spec group db msg t) := by
  refine List.monotone_filter_right db.rows (fun r hr => ?_)
  simp only [Bool.and_eq_true_iff, List.any_eq_true] at hr ⊢
  obtain ⟨hin, m, hm, -, hmatch⟩ := hr
  exact ⟨hin, m, hm, hmatch⟩

theorem asked_of_mem_items (h : Parted cfg spec group parts msg) {p : String × List Doc}
    (hp : p ∈ parts.items) : p.2 = (msg.filter (fun m => tableOf cfg spec group m = some p.1)).map
      (carried cfg spec group) := by
  have hlookup : parts.lookup p.1 = some p.2 := Dict.mem_items.mp hp
  rw [← h.asked p.1, hlookup, Option.getD_some]

/-- A query finds the rows that are wanted by the messages of its table. -/
theorem found_eq (h : Parted cfg spec group parts msg) {o : IterOrder} {p : String × List Doc}
    (hp : p ∈ parts.items) : found o db p = o.order (ownRows cfg spec group db msg p.1) := by
  unfold found ownRows
  rw [asked_of_mem_items h hp]
  congr 1
  refine List.filter_congr (fun r _ => ?_)
  rw [List.any_map, List.any_filter]
  rfl

theorem mem_parts_iff (h : Parted cfg spec group parts msg) :
    t ∈ parts ↔ ∃ m ∈ msg, tableOf cfg spec group m = some t := by
  constructor
  · exact h.mem t
  · rintro ⟨m, hm, ht⟩
    by_contra hnot
    have hasked := h.asked t
    rw [AList.lookup_eq_none.mpr hnot, Option.getD_none] at hasked
    have hmem : carried cfg spec group m ∈ (msg.filter (fun m =>
        tableOf cfg spec group m = some t)).map (carried cfg spec group) :=
      List.mem_map_of_mem (List.mem_filter.mpr ⟨hm, decide_eq_true ht⟩)
    rw [← hasked] at hmem
    exact absurd hmem List.not_mem_nil

/-- The queries succeed if every message carries a field that is configured. -/
theorem queries_ok_iff (h : Parted cfg spec group parts msg)
    (hall : ∀ m ∈ msg, ∃ t, tableOf cfg spec group m = some t ∧ t ≠ _tableName spec group) :
    (∀ p ∈ parts.items, ∃ rows, db.query cfg.order p.1 p.2 = .ok rows)
      ↔ ∀ m ∈ msg, (carried cfg spec group m).items ≠ [] := by
  constructor
  · intro hok m hm
    obtain ⟨t, ht, -⟩ := hall m hm
    obtain ⟨ctxs, hctxs⟩ := Dict.mem_iff_lookup.mp ((mem_parts_iff h).mpr ⟨m, hm, ht⟩)
    have hp : (t, ctxs) ∈ parts.items := Dict.mem_items.mpr hctxs
    obtain ⟨rows, hrows⟩ := hok (t, ctxs) hp
    refine (query_eq_ok_iff.mp hrows).1 _ ?_
    rw [asked_of_mem_items h hp]
    exact List.mem_map_of_mem (List.mem_filter.mpr ⟨hm, decide_eq_true ht⟩)
  · intro hne p hp
    refine ⟨_, query_eq_ok_iff.mpr ⟨fun c hc => ?_, rfl⟩⟩
    rw [asked_of_mem_items h hp] at hc
    obtain ⟨m, hm, rfl⟩ := List.mem_map.mp hc
    exact hne m (List.mem_filter.mp hm).1

/-! ## The cache of a batch -/

variable [DecidableEq κ] {s : Storer κ}

variable (cfg spec group) in
/-- The storer when a batch has begun. -/
def begun (s : Storer κ) : Storer κ :=
  { s with
    updateIds := [], deleteIds := [], cache := ∅, preMsgQueried := false
    currentTableName := _tableName spec group
    contextFields := (keyFields cfg (_tableName spec group)).1
    contextFieldsMissingOk := (keyFields cfg (_tableName spec group)).2 }

theorem preMsgProcess_eq (h : OneTable cfg spec group msg) : preMsgProcess cfg msg s
    = match askedOf cfg spec group msg with
      | .error e => (.error e, begun cfg spec group s)
      | .ok parts => (.ok (), (cfg.order.order parts.items).foldl (prefetchTable cfg)
          (begun cfg spec group s)) := by
  obtain ⟨p, hp⟩ := Dict.mem_iff_lookup.mp h.configured
  cases hmsg : msg with
  | nil => exact absurd hmsg h.ne
  | cons m ms =>
    obtain ⟨hspec, hgroup, -⟩ := h.same m (hmsg ▸ List.mem_cons_self)
    have hfields : keyFields cfg (_tableName spec group) = p := by
      rw [keyFields, hp, Option.getD_some]
    unfold preMsgProcess begun askedOf
    cases hparts : prefetchParts cfg (_tableName spec group) p.1 (m :: ms) with
    | error e => simp only [hspec, hgroup, hp, hfields, hparts]
    | ok parts => simp only [hspec, hgroup, hp, hfields, hparts]

/-- What the cache has for a key when all rows that are found have keys. -/
theorem cache_preMsgProcess (hmsg : OneTable cfg spec group msg)
    (hparts : askedOf cfg spec group msg = .ok parts)
    (hne : ∀ m ∈ msg, (carried cfg spec group m).items ≠ [])
    (hkeyed : ∀ t ∈ parts, ∀ r ∈ ownRows cfg spec group s.db msg t,
      ∃ key, rowKey cfg (_tableName spec group) r.context = some key) (key : κ) :
    (((preMsgProcess cfg msg s).2.cache.lookup key).getD []).Perm
      (parts.keys.flatMap (fun t => (ownRows cfg spec group s.db msg t).filter
        (fun r => rowKey cfg (_tableName spec group) r.context = some key))) := by
  obtain ⟨hall, hparted⟩ := parted_of_ok hmsg hparts
  have hfound : ∀ p ∈ parts.items, found cfg.order s.db p
      = cfg.order.order (ownRows cfg spec group s.db msg p.1) := fun p hp => found_eq hparted hp
  have hcache : ((((cfg.order.order parts.items).foldl (prefetchTable cfg)
      (begun cfg spec group s)).cache.lookup key).getD [])
        = (cfg.order.order parts.items).flatMap (fun p => (found cfg.order s.db p).filter
          (fun r => rowKey cfg (_tableName spec group) r.context = some key)) := by
    refine (cache_foldl_prefetchTable rfl rfl (fun p hp c hc => ?_) (fun p hp r hr => ?_) key).trans
      (List.nil_append _)
    · rw [asked_of_mem_items hparted (cfg.order.mem_order.mp hp)] at hc
      obtain ⟨m, hm, rfl⟩ := List.mem_map.mp hc
      exact hne m (List.mem_filter.mp hm).1
    · have hitem := cfg.order.mem_order.mp hp
      have hr' : r ∈ cfg.order.order (ownRows cfg spec group s.db msg p.1) := hfound p hitem ▸ hr
      exact hkeyed p.1 (Dict.mem_iff_lookup.mpr ⟨p.2, Dict.mem_items.mp hitem⟩) r
        (cfg.order.mem_order.mp hr')
  rw [preMsgProcess_eq hmsg, hparts]
  simp only
  rw [hcache, ← Dict.items_map_fst, List.flatMap_map]
  refine ((cfg.order.perm parts.items).flatMap_right _).trans
    (List.Perm.flatMap_left _ (fun p hp => ?_))
  rw [hfound p hp]
  exact (cfg.order.perm _).filter _

variable (cfg spec group) in
/-- **The prefetch of a batch** raises nothing and fills the cache with the wanted rows if and only
if the batch can be prefetched. -/
theorem prefetched_iff_prefetchable (hmsg : OneTable cfg spec group msg) (s : Storer κ) :
    Prefetched cfg spec group msg s ↔ Prefetchable cfg spec group msg s := by
  constructor
  · intro h
    obtain ⟨parts, hparts⟩ : ∃ parts, askedOf cfg spec group msg = .ok parts := by
      have hok := h.ok
      rw [preMsgProcess_eq hmsg] at hok
      cases hp : askedOf cfg spec group msg with
      | error e =>
        rw [hp] at hok
        cases hok
      | ok parts => exact ⟨parts, rfl⟩
    obtain ⟨hall, hparted⟩ := parted_of_ok hmsg hparts
    constructor
    · -- the field by which the table is split is the same for all messages
      obtain ⟨m₀, hm₀⟩ := List.exists_mem_of_ne_nil msg hmsg.ne
      obtain ⟨field, -, -, hfield, -⟩ := tableOf_ne_iff.mp (hall m₀ hm₀)
      refine ⟨field, hfield, fun m hm => ?_⟩
      obtain ⟨field', v, w, hfield', hv, hw⟩ := tableOf_ne_iff.mp (hall m hm)
      obtain rfl : field = field' := Option.some.inj (hfield.symm.trans hfield')
      exact ⟨v, w, hv, hw⟩
    · intro hne m hm t ht r hr
      obtain ⟨hkeyed, hperm⟩ := h.cached parts hparts ((queries_ok_iff hparted hall).mpr hne)
      have hpart : t ∈ parts := (mem_parts_iff hparted).mpr ⟨m, hm, ht⟩
      obtain ⟨key, hkey⟩ := hkeyed t hpart r hr
      -- under the key of the row nothing is missing, so that each part has what is wanted of it
      have hsame := (cache_preMsgProcess hmsg hparts hne
        (fun t ht r hr => hkeyed t ht r (ownRows_sublist.subset hr)) key).symm.trans (hperm key)
      have heq := eq_of_flatMap_length (fun t _ => ownRows_sublist.filter _) hsame.length_eq.ge t
        (AList.mem_keys.mp hpart)
      have hown : r ∈ (ownRows cfg spec group s.db msg t).filter
          (fun r => rowKey cfg (_tableName spec group) r.context = some key) := by
        rw [heq]
        exact List.mem_filter.mpr ⟨hr, decide_eq_true hkey⟩
      obtain ⟨-, -, hm'⟩ := mem_ownRows.mp (List.mem_filter.mp hown).1
      exact ⟨⟨key, hkey⟩, hm'⟩
  · intro h
    have hall : ∀ m ∈ msg, ∃ t, tableOf cfg spec group m = some t ∧ t ≠ _tableName spec group := by
      obtain ⟨field, hfield, hvalues⟩ := h.split
      intro m hm
      obtain ⟨v, w, hv, hw⟩ := hvalues m hm
      exact tableOf_ne_iff.mpr ⟨field, v, w, hfield, hv, hw⟩
    constructor
    · obtain ⟨parts, hparts⟩ := exists_parts hmsg hall
      rw [preMsgProcess_eq hmsg, hparts]
    · intro parts hparts hqueries
      obtain ⟨-, hparted⟩ := parted_of_ok hmsg hparts
      have hne := (queries_ok_iff hparted hall).mp hqueries
      have hwanted : ∀ t ∈ parts, ∀ r ∈ wantedRows cfg spec group s.db msg t,
          (∃ key, rowKey cfg (_tableName spec group) r.context = some key)
            ∧ r ∈ ownRows cfg spec group s.db msg t := by
        intro t ht r hr
        obtain ⟨m, hm, htable⟩ := hparted.mem t ht
        obtain ⟨hkey, hown⟩ := h.own hne m hm t htable r hr
        obtain ⟨hrow, hin, -⟩ := mem_wantedRows.mp hr
        exact ⟨hkey, mem_ownRows.mpr ⟨hrow, hin, hown⟩⟩
      refine ⟨fun t ht r hr => (hwanted t ht r hr).1, fun key => ?_⟩
      refine (cache_preMsgProcess hmsg hparts hne (fun t ht r hr =>
        (hwanted t ht r (ownRows_sublist.subset hr)).1) key).trans
          (List.Perm.flatMap_left _ (fun t ht => ?_))
      have hsame : ownRows cfg spec group s.db msg t = wantedRows cfg spec group s.db msg t := by
        refine List.filter_congr (fun r hr => ?_)
        rw [Bool.eq_iff_iff]
        constructor
        · intro hown
          exact (List.mem_filter.mp (ownRows_sublist.subset (List.mem_filter.mpr ⟨hr, hown⟩))).2
        · intro hwant
          have hmem : r ∈ wantedRows cfg spec group s.db msg t := List.mem_filter.mpr ⟨hr, hwant⟩
          exact (List.mem_filter.mp (hwanted t (AList.mem_keys.mpr ht) r hmem).2).2
      rw [hsame]

/-! ### Hosts and ports -/

/-- The host is looked up in its partition. -/
theorem prefetched_host :
    Prefetched sampleConfig "caching" "hosts" [hostMessage] (sampleStorer [hostRow 50] 2) := by
  refine (prefetched_iff_prefetchable sampleConfig "caching" "hosts"
    ⟨List.cons_ne_nil _ _, by decide, by decide⟩ _).mpr ⟨⟨"mac_address", by decide, ?_⟩, ?_⟩
  · intro m hm
    rw [List.mem_singleton.mp hm]
    exact ⟨.str "d4be.d951.2cd0", "15", by decide, rfl⟩
  · intro hne m hm t ht r hr
    obtain ⟨-, -, m', hm', hmatch⟩ := mem_wantedRows.mp hr
    rw [List.mem_singleton.mp hm] at ht
    rw [List.mem_singleton.mp hm'] at hmatch
    exact ⟨⟨_, rfl⟩, hostMessage, List.mem_singleton_self _, ht, hmatch⟩

/-- Ports, which are not partitioned, are to be prefetched too. -/
def prefetchedPorts : Config (List (String × Option String)) :=
  { sampleConfig with preMsgProcessTables := Dict.ofList [("ports__status", (["device"], false))] }

/-- The batch is given up. -/
theorem not_prefetched_ports : OneTable prefetchedPorts "ports" "status" [portMessage]
    ∧ ¬ Prefetched prefetchedPorts "ports" "status" [portMessage] (sampleStorer [] 1) :=
  ⟨⟨List.cons_ne_nil _ _, by decide, by decide⟩, fun h => absurd h.ok (by decide)⟩

end Postgres
