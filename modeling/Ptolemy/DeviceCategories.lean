/-
# The categories of a device

A section of the categories' file has patterns under `name` and may have patterns under `exclude`.
`Categoriser.get` takes the sections that are found by one of the two and not by both: this is the
symmetric difference, where the difference is meant.  A section that is found by its exclude
patterns only becomes a category.
-/
import Ptolemy.NetworkDevices

namespace NetworkDevices

variable (search : Search)

/-- A section has a pattern in an option that is found in a name. -/
def Found (cp : ConfigParser) (name field s : String) : Prop :=
  ∃ options patterns, (s, options) ∈ cp ∧ options.lookup field = some patterns
    ∧ ∃ i ∈ Text.split ',' patterns, search (String.ofList (Text.strip i.toList)) name = true

theorem mem_matchSections {cp : ConfigParser} {name field s : String} :
    s ∈ matchSections search cp name field ↔ Found search cp name field s := by
  unfold matchSections Found
  rw [List.mem_map]
  constructor
  · rintro ⟨⟨s', options⟩, hmem, rfl⟩
    obtain ⟨hcp, hfound⟩ := List.mem_filter.mp hmem
    cases hlook : options.lookup field with
    | none => simp [hlook] at hfound
    | some patterns =>
      simp only [hlook, List.any_eq_true] at hfound
      exact ⟨options, patterns, hcp, hlook, hfound⟩
  · rintro ⟨options, patterns, hcp, hlook, hfound⟩
    refine ⟨(s, options), List.mem_filter.mpr ⟨hcp, ?_⟩, rfl⟩
    simp only [hlook, List.any_eq_true]
    exact hfound

theorem mem_symmetricDifference {o : IterOrder} {a b : List String} {s : String} :
    s ∈ symmetricDifference o a b ↔ s ∈ a ∧ s ∉ b ∨ s ∈ b ∧ s ∉ a := by
  simp [symmetricDifference, o.mem_order]

variable (cat : Categoriser) (o : IterOrder) (name : String)

/-- A section with a matching name pattern and no matching exclude pattern. -/
def Categoriser.Kept (s : String) : Prop :=
  Found search cat.categories name "name" s ∧ ¬ Found search cat.categories name "exclude" s

/-- A section with a matching exclude pattern and no matching name pattern. -/
def Categoriser.Stray (s : String) : Prop :=
  Found search cat.categories name "exclude" s ∧ ¬ Found search cat.categories name "name" s

/-- **The categories are the sections that are kept**, or `other` where there are none. -/
def Categoriser.Categorised : Prop :=
  ∀ s, s ∈ (cat.get search o name).categories
    ↔ cat.Kept search name s ∨ s = "other" ∧ ¬ ∃ s', cat.Kept search name s'

/-- What is found: the kept and the stray sections. -/
theorem Categoriser.mem_categories {s : String} :
    s ∈ (cat.get search o name).categories
      ↔ cat.Kept search name s ∨ cat.Stray search name s
        ∨ s = "other" ∧ ¬ ∃ s', cat.Kept search name s' ∨ cat.Stray search name s' := by
  set c := symmetricDifference o (matchSections search cat.categories name "name")
    (matchSections search cat.categories name "exclude") with hc
  have hmem : ∀ s, s ∈ c ↔ cat.Kept search name s ∨ cat.Stray search name s := by
    intro s
    rw [hc, mem_symmetricDifference, mem_matchSections, mem_matchSections]
    rfl
  have hget : (cat.get search o name).categories = if c.isEmpty then ["other"] else c := rfl
  rw [hget]
  split_ifs with hempty
  · have hnone : ¬ ∃ s', cat.Kept search name s' ∨ cat.Stray search name s' := by
      rintro ⟨s', hs'⟩
      have hs'' := (hmem s').mpr hs'
      rw [List.isEmpty_iff.mp hempty] at hs''
      exact List.not_mem_nil hs''
    rw [List.mem_singleton]
    constructor
    · exact fun hs => Or.inr (Or.inr ⟨hs, hnone⟩)
    · rintro (h | h | h)
      · exact absurd ⟨s, Or.inl h⟩ hnone
      · exact absurd ⟨s, Or.inr h⟩ hnone
      · exact h.1
  · have hsome : ∃ s', cat.Kept search name s' ∨ cat.Stray search name s' := by
      obtain ⟨s', hs'⟩ := List.exists_mem_of_ne_nil c (by simpa using hempty)
      exact ⟨s', (hmem s').mp hs'⟩
    rw [hmem, ← or_assoc]
    exact ⟨Or.inl, fun h => h.resolve_right (fun h => h.2 hsome)⟩

/-- **When the categories are right**: when no section is stray, but for one that is called
`other` where no section is kept. -/
theorem Categoriser.categorised_iff : cat.Categorised search o name
    ↔ ∀ s, cat.Stray search name s → s = "other" ∧ ¬ ∃ s', cat.Kept search name s' := by
  constructor
  · intro h s hs
    exact ((h s).mp ((cat.mem_categories search o name).mpr (Or.inr (Or.inl hs)))).resolve_left
      (fun hkept => hs.2 hkept.1)
  · intro h s
    rw [cat.mem_categories search o name]
    constructor
    · rintro (hkept | hstray | ⟨hs, hnone⟩)
      · exact Or.inl hkept
      · exact Or.inr (h s hstray)
      · exact Or.inr ⟨hs, fun ⟨s', hs'⟩ => hnone ⟨s', Or.inl hs'⟩⟩
    · rintro (hkept | ⟨rfl, hnone⟩)
      · exact Or.inl hkept
      · -- either some section is stray, and then it is called `other`, or there is none at all
        by_cases hstray : ∃ s', cat.Stray search name s'
        · obtain ⟨s', hs'⟩ := hstray
          obtain ⟨rfl, -⟩ := h s' hs'
          exact Or.inr (Or.inl hs')
        · refine Or.inr (Or.inr ⟨rfl, ?_⟩)
          rintro ⟨s', hs' | hs'⟩
          · exact hnone ⟨s', hs'⟩
          · exact hstray ⟨s', hs'⟩

/-- The start of a name, as a pattern. -/
def startsWith : Search := fun pattern name =>
  match pattern.toList with
  | '^' :: p => p.isPrefixOf name.toList
  | _ => false

/-- A switch that the data centre excludes, and that none of its names is for, is in the data
centre. -/
theorem Categoriser.not_categorised_excluded :
    ¬ Categoriser.Categorised startsWith
        ⟨[], [], [("data-center", Dict.ofList [("name", "^rtr"), ("exclude", "^swh-dev, ^swh-ssrl")])]⟩
        .stored "swh-ssrl1" := by
  intro h
  have hmem := (h "data-center").mp (by decide +kernel)
  rcases hmem with ⟨hname, -⟩ | ⟨hother, -⟩
  · rw [← mem_matchSections] at hname
    revert hname
    decide +kernel
  · exact absurd hother (by decide)

end NetworkDevices
