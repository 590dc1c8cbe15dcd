/-
# The lines for InfluxDB

`InfluxDbStorer.save` writes each item as one line of the line protocol: `get_key` puts the spec
before the context and the group as tags, `get_data` writes the fields, where what `float` reads
goes as a number and all else between quotes, and the time is an integer.

Nothing is escaped: a name with a space, a comma or an equals sign, or a text with a quote, makes
another line, and not of the same point.
-/
import Ptolemy.Feeder
import Ptolemy.LineProtocol

namespace Influx

open LineProtocol

/-! ## The functions -/

/-- `float`, `int` and the text of a float. -/
structure Floats (φ : Type) : Type where
  float : Value → Except Exn φ
  int : Value → Except Exn ℤ
  str : φ → String
  /-- A text is a float or a `ValueError`. -/
  float_str : ∀ s e, float (.str s) = .error e → ∃ msg, e = .valueError msg
  str_unquoted : Unquoted str

variable {φ : Type} (F : Floats φ)

/-- `get_key`. -/
def getKey (m : ItemMeta) (context : Context) : String :=
  let this := context.insert "group" (.str m.group)
  let keys := (Dict.sortedKeys this).map
    (fun k => k ++ ("=" ++ ((this.lookup k).map Value.toText).getD ""))
  m.spec ++ ("," ++ Text.join "," keys)

/-- `parse` of `get_data`, as it is formatted. -/
def parse (x : Value) : Except Exn String :=
  match F.float x with
  | .ok a => .ok (F.str a)
  | .error (.valueError _) => .ok ("\"" ++ x.toText ++ "\"")
  | .error e => .error e

/-- `get_data`. -/
def getData (o : IterOrder) (data : Item) : Except Exn String := do
  let out ← (o.order data.items).mapM (fun p => (parse F p.2).map (fun v => p.1 ++ ("=" ++ v)))
  pure (Text.join "," out)

/-- The line that `save` adds. -/
def encode (o : IterOrder) (time : Value) (m : ItemMeta) (context : Context) (data : Item) :
    Except Exn String := do
  let fields ← getData F o data
  let t ← F.int time
  pure (getKey m context ++ (" " ++ (fields ++ (" " ++ toString t))))

/-! ## What is given -/

/-- A context or data of texts. -/
def values (d : Dict String String) : Dict String Value := d.mapVals Value.str

/-- The tags in the order of their keys: the context with the group. -/
def tags (m : ItemMeta) (context : Dict String String) : List (String × String) :=
  let this := context.insert "group" m.group
  (Dict.sortedKeys this).map (fun k => (k, (this.lookup k).getD ""))

/-- The value of a field: a number where it is one. -/
def fieldOf (v : Value) : FieldValue φ :=
  match F.float v with
  | .ok a => .number a
  | .error _ => .string v.toText

/-- The fields in the order of the loop. -/
def fields (o : IterOrder) (data : Dict String String) : List (String × FieldValue φ) :=
  (o.order (values data).items).map (fun p => (p.1, fieldOf F p.2))

/-- **The line says what was given**: it decodes to spec, context with group, fields and integer
time, in the order in which they are written. -/
def Decodes (number : String → Option φ) (o : IterOrder) (time : Value) (m : ItemMeta)
    (context data : Dict String String) : Prop :=
  ∃ text t, encode F o time m (values context) (values data) = .ok text ∧ F.int time = .ok t
    ∧ read number text = some ⟨m.spec, tags m context, fields F o data, some t⟩
    ∧ ∀ g, context.lookup "group" = some g → g = m.group

/-- Nothing needs an escape, there is a field, and the context has no other group. -/
structure Clean (number : String → Option φ) (time : Value) (m : ItemMeta)
    (context data : Dict String String) : Prop where
  time : ∃ t, F.int time = .ok t
  spec : Bare measurementStop m.spec.toList
  comment : m.spec.toList.head? ≠ some '#'
  group : Bare nameStop m.group.toList
  own : ∀ g, context.lookup "group" = some g → g = m.group
  context : ∀ k v, context.lookup k = some v → Bare nameStop k.toList ∧ Bare nameStop v.toList
  data_ne : ∃ k, k ∈ data
  data : ∀ k v, data.lookup k = some v →
    Bare nameStop k.toList ∧ Faithful F.str number (fieldOf F (.str v))

/-! ## The text of a line -/

theorem mem_tags {m : ItemMeta} {context : Dict String String} {k v : String} :
    (k, v) ∈ tags m context ↔ (context.insert "group" m.group).lookup k = some v := by
  simp only [tags, List.mem_map, Prod.mk.injEq, Dict.mem_sortedKeys]
  constructor
  · rintro ⟨k', hk', rfl, rfl⟩
    obtain ⟨w, hw⟩ := Dict.mem_iff_lookup.mp hk'
    rw [hw, Option.getD_some]
  · intro h
    exact ⟨k, Dict.mem_iff_lookup.mpr ⟨v, h⟩, rfl, by rw [h, Option.getD_some]⟩

theorem mem_fields {o : IterOrder} {data : Dict String String} {p : String × FieldValue φ} :
    p ∈ fields F o data ↔ ∃ v, data.lookup p.1 = some v ∧ p.2 = fieldOf F (.str v) := by
  obtain ⟨k, f⟩ := p
  simp only [fields, List.mem_map, Prod.mk.injEq]
  constructor
  · rintro ⟨⟨k', w⟩, hmem, rfl, rfl⟩
    have hlook := Dict.mem_items.mp (o.mem_order.mp hmem)
    rw [values, Dict.lookup_mapVals] at hlook
    obtain ⟨v, hv, rfl⟩ := Option.map_eq_some_iff.mp hlook
    exact ⟨v, hv, rfl⟩
  · rintro ⟨v, hv, rfl⟩
    refine ⟨(k, .str v), o.mem_order.mpr (Dict.mem_items.mpr ?_), rfl, rfl⟩
    rw [values, Dict.lookup_mapVals, hv, Option.map_some]

theorem toList_join_comma (l : List String) (s : String) :
    (Text.join "," (s :: l)).toList = s.toList ++ l.flatMap (fun t => ',' :: t.toList) := by
  induction l generalizing s with
  | nil => simp [Text.join]
  | cons t l ih => simp [Text.join, ih]

theorem sortedKeys_values (m : ItemMeta) (context : Dict String String) :
    Dict.sortedKeys ((values context).insert "group" (.str m.group))
      = Dict.sortedKeys (context.insert "group" m.group) := by
  refine Dict.sortedKeys_congr (fun k => ?_)
  rw [Dict.mem_iff_lookup, Dict.mem_iff_lookup]
  simp only [values, Dict.lookup_insert_eq, Dict.lookup_mapVals]
  split_ifs with hk
  · simp
  · cases context.lookup k <;> simp

/-- The key is the measurement with its tags. -/
theorem toList_getKey (m : ItemMeta) (context : Dict String String) :
    (getKey m (values context)).toList = m.spec.toList ++ tagsText (tags m context) := by
  have hkeys : (Dict.sortedKeys ((values context).insert "group" (.str m.group))).map
        (fun k => k ++ ("=" ++ ((((values context).insert "group" (.str m.group)).lookup k).map
          Value.toText).getD ""))
      = (tags m context).map (fun p => p.1 ++ ("=" ++ p.2)) := by
    rw [sortedKeys_values, tags, List.map_map]
    refine List.map_congr_left (fun k _ => ?_)
    simp only [Function.comp_apply, values, Dict.lookup_insert_eq, Dict.lookup_mapVals]
    split_ifs with hk
    · rfl
    · cases context.lookup k <;> rfl
  have hne : tags m context ≠ [] := List.ne_nil_of_mem
    (mem_tags.mpr (by rw [Dict.lookup_insert_eq, if_pos rfl]) : ("group", m.group) ∈ tags m context)
  rw [getKey, hkeys]
  cases htags : tags m context with
  | nil => exact absurd htags hne
  | cons p ps =>
    rw [List.map_cons, String.toList_append, String.toList_append, toList_join_comma]
    simp [tagsText, List.flatMap_map]

/-- A text is formatted as its field. -/
theorem parse_str (s : String) : parse F (.str s) = .ok ((fieldOf F (.str s)).text F.str) := by
  rw [parse, fieldOf]
  cases h : F.float (.str s) with
  | ok a => rfl
  | error e =>
    obtain ⟨msg, rfl⟩ := F.float_str s e h
    rfl

theorem toList_join_fields (str : φ → String) (l : List (String × FieldValue φ)) :
    (Text.join "," (l.map (fun p => p.1 ++ ("=" ++ p.2.text str)))).toList = fieldsText str l := by
  induction l with
  | nil => rfl
  | cons p l ih => cases l with
    | nil => simp [Text.join, fieldsText]
    | cons q l =>
      rw [List.map_cons] at ih
      rw [List.map_cons, List.map_cons, Text.join, fieldsText_cons_cons]
      simp only [String.toList_append, ih]
      simp

theorem getData_values (o : IterOrder) (data : Dict String String) :
    getData F o (values data) = .ok (String.ofList (fieldsText F.str (fields F o data))) := by
  have hparse : (o.order (values data).items).mapM
        (fun p => (parse F p.2).map (fun v => p.1 ++ ("=" ++ v)))
      = .ok ((o.order (values data).items).map
        (fun p => p.1 ++ ("=" ++ (fieldOf F p.2).text F.str))) := by
    refine Except.mapM_eq_map ?_
    rintro ⟨k, w⟩ hmem
    have hlook := Dict.mem_items.mp (o.mem_order.mp hmem)
    rw [values, Dict.lookup_mapVals] at hlook
    obtain ⟨v, -, rfl⟩ := Option.map_eq_some_iff.mp hlook
    rw [parse_str]
    rfl
  rw [getData, hparse, Except.ok_bind, ← toList_join_fields, fields, List.map_map,
    String.ofList_toList]
  rfl

/-- The line of what is given. -/
theorem encode_values {time : Value} {t : ℤ} (ht : F.int time = .ok t) (o : IterOrder)
    (m : ItemMeta) (context data : Dict String String) :
    encode F o time m (values context) (values data)
      = .ok (String.ofList (lineText F.str m.spec (tags m context) (fields F o data) t)) := by
  rw [encode, getData_values, Except.ok_bind, ht, Except.ok_bind]
  refine congrArg Except.ok (String.toList_inj.mp ?_)
  simp [toList_getKey, lineText]

/-! ## When it decodes -/

variable {F} {number : String → Option φ} {o : IterOrder} {time : Value} {m : ItemMeta}
  {context data : Dict String String}

theorem clean_of_decodes (h : Decodes F number o time m context data) :
    Clean F number time m context data := by
  obtain ⟨text, t, hencode, ht, hread, hown⟩ := h
  rw [encode_values F ht] at hencode
  obtain rfl := Except.ok.inj hencode
  have hplain := (read_line_iff m.spec (tags m context) (fields F o data) t F.str_unquoted).mp hread
  have hgroup : (context.insert "group" m.group).lookup "group" = some m.group := by
    rw [Dict.lookup_insert_eq, if_pos rfl]
  refine ⟨⟨t, ht⟩, hplain.measurement, hplain.comment, (hplain.tags _ (mem_tags.mpr hgroup)).2,
    hown, ?_, ?_, ?_⟩
  · intro k v hv
    refine hplain.tags _ (mem_tags.mpr ?_)
    rw [Dict.lookup_insert_eq]
    split_ifs with hk
    · subst hk
      rw [hown v hv]
    · exact hv
  · obtain ⟨p, hp⟩ := List.exists_mem_of_ne_nil _ hplain.fields_ne_nil
    obtain ⟨v, hv, -⟩ := (mem_fields F).mp hp
    exact ⟨p.1, Dict.mem_iff_lookup.mpr ⟨v, hv⟩⟩
  · intro k v hv
    exact hplain.fields (k, fieldOf F (.str v)) ((mem_fields F).mpr ⟨v, hv, rfl⟩)

theorem plain_of_clean (h : Clean F number time m context data) :
    Plain F.str number m.spec (tags m context) (fields F o data) := by
  refine ⟨h.spec, h.comment, ?_, ?_, ?_⟩
  · rintro ⟨k, v⟩ hmem
    rw [mem_tags, Dict.lookup_insert_eq] at hmem
    split_ifs at hmem with hk
    · obtain rfl := Option.some.inj hmem
      subst hk
      exact ⟨⟨by simp, by simp [nameStop], by simp⟩, h.group⟩
    · exact h.context k v hmem
  · obtain ⟨k, hk⟩ := h.data_ne
    obtain ⟨v, hv⟩ := Dict.mem_iff_lookup.mp hk
    exact List.ne_nil_of_mem
      ((mem_fields F).mpr ⟨v, hv, rfl⟩ : (k, fieldOf F (.str v)) ∈ fields F o data)
  · rintro ⟨k, f⟩ hmem
    obtain ⟨v, hv, rfl⟩ := (mem_fields F).mp hmem
    exact h.data k v hv

/-- **When a line decodes to what was given**: when nothing needs an escape. -/
theorem decodes_iff : Decodes F number o time m context data
    ↔ Clean F number time m context data := by
  refine ⟨clean_of_decodes, fun h => ?_⟩
  obtain ⟨t, ht⟩ := h.time
  exact ⟨_, t, encode_values F ht o m context data, ht,
    (read_line_iff m.spec (tags m context) (fields F o data) t F.str_unquoted).mpr
      (plain_of_clean h), h.own⟩

/-- Contexts that need no escapes and have one series are the same. -/
theorem same_of_getKey_eq {m' : ItemMeta} {context' data' : Dict String String} {time' : Value}
    (h : Clean F number time m context data) (h' : Clean F number time' m' context' data')
    (heq : getKey m (values context) = getKey m' (values context')) :
    m.spec = m'.spec
      ∧ Dict.Same (context.insert "group" m.group) (context'.insert "group" m'.group) := by
  have hplain := plain_of_clean (o := .stored) h
  have hplain' := plain_of_clean (o := .stored) h'
  have hswap : Plain F.str number m'.spec (tags m' context') (fields F .stored data) :=
    ⟨hplain'.measurement, hplain'.comment, hplain'.tags, hplain.fields_ne_nil, hplain.fields⟩
  have hread := (read_line_iff m.spec _ _ 0 F.str_unquoted).mpr hplain
  have hread' := (read_line_iff m'.spec _ _ 0 F.str_unquoted).mpr hswap
  have htext : lineText F.str m.spec (tags m context) (fields F .stored data) 0
      = lineText F.str m'.spec (tags m' context') (fields F .stored data) 0 := by
    have hlist := congrArg String.toList heq
    rw [toList_getKey, toList_getKey] at hlist
    rw [lineText, lineText, ← List.append_assoc, hlist, List.append_assoc]
  rw [htext, hread'] at hread
  obtain ⟨hspec, htags, -, -⟩ := Point.mk.inj (Option.some.inj hread)
  refine ⟨hspec.symm, fun k => Option.ext (fun v => ?_)⟩
  rw [← mem_tags, ← mem_tags, htags]

/-! ## Names that need escapes -/

/-- Whole numbers as floats. -/
def whole : Floats ℤ where
  float v := match v with
    | .int n => .ok n
    | .str s => (Text.int? s).elim
        (.error (.valueError ("could not convert string to float: " ++ s))) .ok
    | _ => .error (.typeError "float() argument must be a string or a number")
  int v := match v with
    | .int n => .ok n
    | .str s => (Text.int? s).elim
        (.error (.valueError ("invalid literal for int() with base 10: '" ++ s ++ "'"))) .ok
    | _ => .error (.typeError "int() argument must be a string or a number")
  str n := toString n ++ ".0"
  float_str := by
    intro s e h
    cases hs : Text.int? s with
    | none =>
      simp only [hs, Option.elim_none, Except.error.injEq] at h
      exact ⟨_, h.symm⟩
    | some n => simp [hs] at h
  str_unquoted := by
    intro n c hc
    rw [String.toList_append, List.mem_append] at hc
    have hnot : ∀ d : Char, d ≠ '-' → d.isDigit = false → d ≠ '.' → c ≠ d := by
      rintro d hminus hdigit hpoint rfl
      rcases hc with hc | hc
      · exact Text.notMem_toString hminus hdigit n hc
      · simp only [String.reduceToList, List.mem_cons, List.not_mem_nil, or_false] at hc
        rcases hc with hc | rfl
        · exact hpoint hc
        · revert hdigit
          decide
    have hcomma := hnot ',' (by decide) (by decide) (by decide)
    have hspace := hnot ' ' (by decide) (by decide) (by decide)
    have hline := hnot '\n' (by decide) (by decide) (by decide)
    exact ⟨by simp [literalStop, hcomma, hspace, hline],
      hnot _ (by decide) (by decide) (by decide)⟩

/-- How their texts are read. -/
def wholeNumber (t : String) : Option ℤ :=
  match Text.split '.' t with
  | [n, "0"] => Text.int? n
  | _ => none

/-- The metadata of a table of ports. -/
def portMeta : ItemMeta := ⟨"port", "port_stats", ["device"], {}⟩

/-- A device with a space in its name has no line, and a port whose name goes on like another tag
has the series of another context. -/
theorem not_decodes_space :
    ¬ Decodes whole wholeNumber .stored (.int 0) portMeta (Dict.ofList [("device", "rtr 1")])
        (Dict.ofList [("in", "5")])
      ∧ getKey portMeta (values (Dict.ofList [("device", "r"), ("port", "1,vlan=2")]))
        = getKey portMeta (values (Dict.ofList [("device", "r"), ("port", "1"), ("vlan", "2")])) := by
  constructor
  · intro h
    have hdevice := ((clean_of_decodes h).context "device" "rtr 1" (by decide)).2.stop ' '
    exact absurd (hdevice (by simp)) (by decide)
  · decide +kernel

end Influx
