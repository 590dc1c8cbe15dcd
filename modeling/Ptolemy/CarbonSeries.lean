/-
# The series of a context

The key under which carbon stores a metric is a path: the device in reverse, the spec, the group,
and the values of the other fields in the order of their names, with points between them and for
every slash.  The names of the fields are left out, and what a value has of points and slashes is
not marked: two contexts have one key when their pieces, put one after the other, are the same.
-/
import Ptolemy.AlertLimits
import Ptolemy.Carbon

namespace CarbonSeries

/-! ## Pieces -/

/-- The pieces of a text between points and slashes. -/
def cut (s : String) : List String := Text.split '.' (Text.replaceChar '/' '.' s)

theorem replaceChar_append (a b : Char) (s t : String) :
    Text.replaceChar a b (s ++ t) = Text.replaceChar a b s ++ Text.replaceChar a b t := by
  apply String.toList_inj.mp
  simp [Text.replaceChar]

theorem cut_append (s t : String) : cut (s ++ ("." ++ t)) = cut s ++ cut t := by
  rw [cut, replaceChar_append, replaceChar_append,
    show Text.replaceChar '/' '.' "." = "." from rfl]
  unfold Text.split
  rw [String.toList_append, String.toList_append,
    show ".".toList ++ (Text.replaceChar '/' '.' t).toList
      = '.' :: (Text.replaceChar '/' '.' t).toList from rfl,
    Text.splitChars_append, List.map_append]
  rfl

theorem cut_join {l : List String} (h : l ≠ []) : cut (Text.join "." l) = l.flatMap cut := by
  induction l with
  | nil => exact absurd rfl h
  | cons s l ih =>
    cases l with
    | nil => rw [Text.join, List.flatMap_singleton]
    | cons t l =>
      rw [Text.join, cut_append, ih (List.cons_ne_nil t l)]
      exact List.flatMap_cons.symm

/-- A text without points and slashes is one piece. -/
theorem cut_plain {s : String} (hpoint : '.' ∉ s.toList) (hslash : '/' ∉ s.toList) :
    cut s = [s] := by
  have hsame : Text.replaceChar '/' '.' s = s := by
    apply String.toList_inj.mp
    have hmap : s.toList.map (fun x => if x = '/' then '.' else x) = s.toList.map id :=
      List.map_congr_left (fun x hx => if_neg (fun h : x = '/' => hslash (h ▸ hx)))
    rw [Text.replaceChar, String.toList_ofList, hmap, List.map_id]
  rw [cut, hsame, Text.split, Text.splitChars_of_notMem hpoint, List.map_singleton,
    String.ofList_toList]

/-- The other fields of a context, as texts in the order of their names. -/
def contextKeys (context : Context) : List String :=
  ((Dict.sortedKeys context).filter (· ≠ "device")).map
    (fun k => ((context.lookup k).map Value.toText).getD "")

/-- The pieces of a device in reverse, of the spec, of the group and of the other fields; no other
field is like an empty one. -/
def pieces (m : ItemMeta) (context : Context) (device : String) : List String :=
  (Text.split '.' device).reverse.flatMap cut ++ (cut m.spec ++ (cut m.group
    ++ (if contextKeys context = [] then [""] else (contextKeys context).flatMap cut)))

/-- Two contexts whose devices have names, and that have the same pieces. -/
def Confusable (m : ItemMeta) (c c' : Context) : Prop :=
  ∃ d d', c.lookup "device" = some (.str d) ∧ c'.lookup "device" = some (.str d')
    ∧ pieces m c d = pieces m c' d'

/-! ## Keys -/

/-- The path of a context, before its slashes are replaced. -/
def path (m : ItemMeta) (context : Context) (device : String) : String :=
  Text.join "." (Text.split '.' device).reverse ++ ("." ++ (m.spec ++ ("." ++ (m.group
    ++ ("." ++ Text.join "." (contextKeys context))))))

theorem cut_path (m : ItemMeta) (context : Context) (device : String) :
    cut (path m context device) = pieces m context device := by
  have hdevice : (Text.split '.' device).reverse ≠ [] := by
    simpa [Text.split] using Text.splitChars_ne_nil '.' device.toList
  have hkeys : cut (Text.join "." (contextKeys context))
      = if contextKeys context = [] then [""] else (contextKeys context).flatMap cut := by
    split_ifs with h
    · rw [h]
      rfl
    · exact cut_join h
  rw [path, cut_append, cut_append, cut_append, cut_join hdevice, hkeys, pieces]

section Keys

variable {m : ItemMeta} (hm : m.flags.carbonKey = none) (keyPrepend : String)
include hm

theorem getCarbonKey_str {context : Context} {d : String}
    (hd : context.lookup "device" = some (.str d)) :
    getCarbonKey m context keyPrepend
      = .ok (Text.replaceChar '/' '.' (keyPrepend ++ path m context d)) := by
  unfold getCarbonKey
  simp only [hm, hd, path, contextKeys, String.append_assoc]
  rfl

/-- A context with a key has a device with a name. -/
theorem exists_device {context : Context} {key : String}
    (h : getCarbonKey m context keyPrepend = .ok key) :
    ∃ d, context.lookup "device" = some (.str d) := by
  unfold getCarbonKey at h
  simp only [hm] at h
  split at h
  · cases h
  · rename_i d hd
    exact ⟨d, hd⟩
  · cases h

/-- **When two contexts have one key**: when they are confusable. -/
theorem getCarbonKey_eq_iff {c c' : Context} :
    (∃ key, getCarbonKey m c keyPrepend = .ok key ∧ getCarbonKey m c' keyPrepend = .ok key)
      ↔ Confusable m c c' := by
  have hkey : ∀ d d', (Text.replaceChar '/' '.' (keyPrepend ++ path m c d)
        = Text.replaceChar '/' '.' (keyPrepend ++ path m c' d'))
      ↔ pieces m c d = pieces m c' d' := by
    intro d d'
    rw [replaceChar_append, replaceChar_append, String.append_right_inj, ← cut_path, ← cut_path,
      cut, cut, (Text.split_injective '.').eq_iff]
  constructor
  · rintro ⟨key, h, h'⟩
    obtain ⟨d, hd⟩ := exists_device hm keyPrepend h
    obtain ⟨d', hd'⟩ := exists_device hm keyPrepend h'
    rw [getCarbonKey_str hm keyPrepend hd] at h
    rw [getCarbonKey_str hm keyPrepend hd', ← h] at h'
    exact ⟨d, d', hd, hd', (hkey d d').mp (Except.ok.inj h').symm⟩
  · rintro ⟨d, d', hd, hd', hpieces⟩
    refine ⟨_, getCarbonKey_str hm keyPrepend hd, ?_⟩
    rw [getCarbonKey_str hm keyPrepend hd', (hkey d d').mpr hpieces]

/-- **A key is the key of one context**: of two contexts that have it both are the same. -/
def Distinct (m : ItemMeta) (keyPrepend : String) (c c' : Context) : Prop :=
  ∀ key, getCarbonKey m c keyPrepend = .ok key → getCarbonKey m c' keyPrepend = .ok key →
    Dict.Same c c'

/-- **When a key tells two contexts apart**: when they are not confusable. -/
theorem distinct_iff (c c' : Context) : Distinct m keyPrepend c c'
    ↔ Dict.Same c c' ∨ ¬ Confusable m c c' := by
  rw [← getCarbonKey_eq_iff hm keyPrepend]
  constructor
  · intro h
    by_cases hkey : ∃ key, getCarbonKey m c keyPrepend = .ok key
        ∧ getCarbonKey m c' keyPrepend = .ok key
    · obtain ⟨key, hc, hc'⟩ := hkey
      exact Or.inl (h key hc hc')
    · exact Or.inr hkey
  · rintro (hsame | hkey) key hc hc'
    · exact hsame
    · exact absurd ⟨key, hc, hc'⟩ hkey

end Keys

/-- The ports of a device. -/
def portMeta : ItemMeta := ⟨"port", "port_stats", ["device", "physical_port"], {}⟩

/-- A port of a router. -/
def portOf (port : String) : Context :=
  Dict.ofList [("device", .str "rtr-core1"), ("physical_port", .str port)]

/-- Two ports are told apart. -/
theorem distinct_iff_ports : Distinct portMeta "ptolemy." (portOf "Gi1/1") (portOf "Gi1/2") := by
  refine (distinct_iff rfl "ptolemy." _ _).mpr (Or.inr ?_)
  rintro ⟨d, d', hd, hd', hpieces⟩
  obtain rfl : "rtr-core1" = d := Value.str.inj (Option.some.inj hd)
  obtain rfl : "rtr-core1" = d' := Value.str.inj (Option.some.inj hd')
  revert hpieces
  decide +kernel

/-- A port and the first unit of a port have one series. -/
theorem not_distinct_ports : (∀ k, k ∈ portOf "Gi1/1" ↔ k ∈ portOf "Gi1.1")
    ∧ ¬ Distinct portMeta "ptolemy." (portOf "Gi1/1") (portOf "Gi1.1") := by
  have hport : ∀ port, (portOf port).keys = ["physical_port", "device"] := fun _ => rfl
  constructor
  · intro k
    rw [AList.mem_keys, AList.mem_keys, hport, hport]
  · intro h
    have hsame := h "ptolemy.rtr-core1.port_stats.port.Gi1.1" (by decide +kernel) (by decide +kernel)
    exact absurd (hsame "physical_port") (by decide +kernel)

/-! ## Plain names -/

/-- Of one device, contexts with the same fields whose texts have no points and no slashes are not
confusable unless these texts are the same. -/
theorem same_texts_of_confusable {m : ItemMeta} {c c' : Context} (hfields : ∀ k, k ∈ c ↔ k ∈ c')
    (hdevice : c.lookup "device" = c'.lookup "device")
    (hplain : ∀ s ∈ contextKeys c ++ contextKeys c', '.' ∉ s.toList ∧ '/' ∉ s.toList)
    (h : Confusable m c c') (k : String) :
    (c.lookup k).map Value.toText = (c'.lookup k).map Value.toText := by
  obtain ⟨d, d', hd, hd', hpieces⟩ := h
  have hsame : d = d' := by
    rw [hd, hd'] at hdevice
    exact Value.str.inj (Option.some.inj hdevice)
  subst hsame
  have hsorted := Dict.sortedKeys_congr hfields
  have hempty : contextKeys c = [] ↔ contextKeys c' = [] := by
    rw [contextKeys, contextKeys, List.map_eq_nil_iff, List.map_eq_nil_iff, hsorted]
  have hcut : ∀ l : List String, (∀ s ∈ l, '.' ∉ s.toList ∧ '/' ∉ s.toList) →
      l.flatMap cut = l := by
    intro l hl
    have hone : ∀ s ∈ l, cut s = [s] := fun s hs => cut_plain (hl s hs).1 (hl s hs).2
    rw [List.flatMap_congr hone, List.flatMap_singleton']
  have hkeys : contextKeys c = contextKeys c' := by
    simp only [pieces, List.append_cancel_left_eq] at hpieces
    by_cases hnil : contextKeys c = []
    · rw [hnil, hempty.mp hnil]
    · rw [if_neg hnil, if_neg (fun h => hnil (hempty.mpr h)),
        hcut _ (fun s hs => hplain s (List.mem_append_left _ hs)),
        hcut _ (fun s hs => hplain s (List.mem_append_right _ hs))] at hpieces
      exact hpieces
  by_cases hdev : k = "device"
  · rw [hdev, hdevice]
  by_cases hk : k ∈ c
  · have hmem : k ∈ (Dict.sortedKeys c').filter (· ≠ "device") := by
      simpa [Dict.mem_sortedKeys, hdev] using (hfields k).mp hk
    rw [contextKeys, contextKeys, hsorted] at hkeys
    have htext := List.map_inj_left.mp hkeys k hmem
    obtain ⟨v, hv⟩ := Dict.mem_iff_lookup.mp hk
    obtain ⟨v', hv'⟩ := Dict.mem_iff_lookup.mp ((hfields k).mp hk)
    simpa [hv, hv'] using htext
  · rw [AList.lookup_eq_none.mpr hk, AList.lookup_eq_none.mpr (fun h => hk ((hfields k).mpr h))]

end CarbonSeries
