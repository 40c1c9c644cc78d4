import Mathlib.Data.List.Nodup
import RecordQuery.Store.Schema

/-!
# `RecordQuery.Proofs.Schema`: the forest of classes

`Schema.Below` is the inheritance relation: a class is below itself and below what its superclass is
below. The program does not use the relation. It walks upwards from a class by `Schema.superclass?`
(`Schema.ancestors`, `Schema.isSubclassOf`), and downwards by the subclasses that each class lists
(`Schema.subclasses`). The two directions are stored apart, as a field of the subclass and as a
field of the superclass, so they could contradict each other, and a walk could go round in circles.
The walks of the model are bounded by the number of classes and would then give a wrong answer
instead of none.

`Schema.Forest` is the invariant that rules this out. A class is listed below its superclass, once
(`mem_subclasses`, `siblings`), and superclasses have a lower rank than their subclasses (`ranked`).
The rank is at most the number of classes, which is what makes the bound of the walks large enough.
`Schema.GrowsBy` says what declaring a class does to the two directions, and `Schema.Forest.grow`
that the schema stays a forest.

The theorems:

* `Schema.Forest.isSubclassOf_iff`: the walk upwards finds every class above, and no others.
* `Schema.Forest.ancestors_eq`: the ancestors of a class are the class and the ancestors of its
  superclass.
* `Schema.Forest.subclasses_disjoint`: nothing is below two different subclasses of one class, so a
  walk downwards meets each class once.
* `Schema.Forest.grow`: declaring another class keeps the forest.
-/

set_option autoImplicit false

namespace RecordQuery

/-- The class with one subclass more, `name`, listed last. -/
def ClassDef.withSubclass (name : String) (c : ClassDef) : ClassDef :=
  { c with subclasses := c.subclasses ++ [name] }

namespace Schema

/-- `name` is `ancestor` or inherits from it. The relation follows `Schema.superclass?`, so a class
is below at most one path of classes. -/
inductive Below (schema : Schema) : String → String → Prop
  /-- Every class is below itself. -/
  | refl (name : String) : Below schema name name
  /-- A class is below what its superclass is below. -/
  | step {name parent ancestor : String} :
      schema.superclass? name = some parent → Below schema parent ancestor →
      Below schema name ancestor

/-- `Below` is transitive. -/
theorem Below.trans {schema : Schema} {a b c : String} (hab : schema.Below a b)
    (hbc : schema.Below b c) : schema.Below a c := by
  induction hab with
  | refl => exact hbc
  | step hparent _ ih => exact .step hparent (ih hbc)

/-- Inheritance depends on the superclasses only. The lists of subclasses do not enter `Below`. -/
theorem below_congr {schema changed : Schema}
    (h : ∀ name, changed.superclass? name = schema.superclass? name) {name ancestor : String} :
    changed.Below name ancestor ↔ schema.Below name ancestor := by
  constructor
  · intro hbelow
    induction hbelow with
    | refl => exact .refl _
    | step hparent _ ih => exact .step (by rw [← h]; exact hparent) ih
  · intro hbelow
    induction hbelow with
    | refl => exact .refl _
    | step hparent _ ih => exact .step (by rw [h]; exact hparent) ih

/-- Classes with their superclasses and subclasses make a forest. The two directions agree, and
there is no cycle: going up lowers the rank that `ranked` asks for. -/
structure Forest (schema : Schema) : Prop where
  /-- The classes listed below a class are those with that superclass. -/
  mem_subclasses : ∀ {name parent : String},
    name ∈ schema.subclasses parent ↔ schema.superclass? name = some parent
  /-- No class is listed twice. -/
  siblings : ∀ parent : String, (schema.subclasses parent).Nodup
  /-- Superclasses have a lower rank, and no rank is higher than the number of classes. So going up
  from any class ends after as many steps. -/
  ranked : ∃ rank : String → Nat, (∀ name, rank name ≤ schema.length) ∧
    ∀ {name parent : String}, schema.superclass? name = some parent → rank parent < rank name

/-! ## Finding classes

A class is found by its name, and `update` changes only the class with the name. -/

/-- A class with a `superclass?` is declared. -/
theorem declares_of_superclass? {schema : Schema} {name parent : String}
    (h : schema.superclass? name = some parent) : schema.declares name = true := by
  unfold superclass? at h
  unfold declares
  cases hfind : schema.find? name with
  | none => simp [hfind] at h
  | some c => rfl

/-- The class that `find?` finds has the name. -/
theorem name_of_find? {schema : Schema} {name : String} {c : ClassDef}
    (h : schema.find? name = some c) : c.name = name := by
  have hname := List.find?_some h
  exact eq_of_beq hname

/-- The class that `find?` finds is one of the schema. -/
theorem mem_of_find? {schema : Schema} {name : String} {c : ClassDef}
    (h : schema.find? name = some c) : c ∈ schema :=
  List.mem_of_find?_eq_some h

/-- A class put behind others is found under its name when none of those has the name: `find?` takes
the first one. -/
theorem find?_append_singleton (schema : Schema) (c : ClassDef) (name : String) :
    find? (schema ++ [c]) name =
      (schema.find? name).or (if c.name = name then some c else none) := by
  unfold find?
  rw [List.find?_append, List.find?_singleton]
  simp only [beq_iff_eq]

/-- `update` changes the class of that name, and the others are found as they were. `hname`: the
change keeps the name, so that the class is still found under it. -/
theorem find?_update {schema : Schema} {name other : String} {change : ClassDef → ClassDef}
    (hname : ∀ c, (change c).name = c.name) :
    (schema.update name change).find? other =
      (schema.find? other).map fun c => if c.name == name then change c else c := by
  unfold find? update
  rw [List.find?_map]
  congr 1
  congr 1
  funext c
  show ((if c.name == name then change c else c).name == other) = (c.name == other)
  split
  · rw [hname]
  · rfl

/-! ## Walks in a forest

Going down raises the rank of a class, so a walk upwards ends, with as many steps as there are
classes. The tests of the program are shown to decide `Below`. -/

/-- Two classes above one class are `Below` one another, one way or the other: both are on the one
path upwards. -/
theorem Below.total {schema : Schema} {name a b : String} (ha : schema.Below name a)
    (hb : schema.Below name b) : schema.Below a b ∨ schema.Below b a := by
  induction ha with
  | refl => exact .inl hb
  | step hparent hrest ih =>
      cases hb with
      | refl => exact .inr (.step hparent hrest)
      | step hparent' hrest' =>
          rw [hparent] at hparent'
          injection hparent' with heq
          exact ih (heq ▸ hrest')

/-- The walk upwards does not depend on the number of steps that it is given, if that is at least
the rank of the class. `Schema.ancestors` gives it one more than there are classes. -/
theorem ancestorsWithin_eq {schema : Schema} {rank : String → Nat}
    (hrank : ∀ {name parent : String}, schema.superclass? name = some parent →
      rank parent < rank name) {steps more : Nat} {name : String}
    (hsteps : rank name ≤ steps) (hmore : rank name ≤ more) :
    schema.ancestorsWithin steps name = schema.ancestorsWithin more name := by
  -- the rank drops with each step upwards, so a class of rank zero has no superclass
  induction steps generalizing more name with
  | zero =>
      cases more with
      | zero => rfl
      | succ more =>
          rw [ancestorsWithin, ancestorsWithin]
          cases hparent : schema.superclass? name with
          | none => rfl
          | some parent =>
              have hlt := hrank hparent
              omega
  | succ steps ih =>
      cases hparent : schema.superclass? name with
      | none => cases more <;> simp [ancestorsWithin, hparent]
      | some parent =>
          have hlt := hrank hparent
          cases more with
          | zero => omega
          | succ more =>
              rw [ancestorsWithin, ancestorsWithin, hparent]
              dsimp only
              rw [ih (by omega) (by omega : rank parent ≤ more)]

section

variable {schema : Schema} (h : schema.Forest)

include h

/-- A superclass is declared. Otherwise the class would be listed below nothing, against
`mem_subclasses`. -/
theorem Forest.declares_superclass {name parent : String}
    (hparent : schema.superclass? name = some parent) : schema.declares parent = true := by
  have hmem := h.mem_subclasses.mpr hparent
  unfold subclasses at hmem
  unfold declares
  cases hfind : schema.find? parent with
  | none => simp [hfind] at hmem
  | some c => rfl

/-- No class is `Below` one of its subclasses, as going down raises the rank. -/
theorem Forest.not_below_of_superclass? {name parent : String}
    (hparent : schema.superclass? name = some parent) : ¬ schema.Below parent name := by
  obtain ⟨rank, -, hrank⟩ := h.ranked
  have hle : ∀ {a b : String}, schema.Below a b → rank b ≤ rank a := by
    intro a b hbelow
    induction hbelow with
    | refl => exact Nat.le_refl _
    | step hparent _ ih => exact Nat.le_trans ih (Nat.le_of_lt (hrank hparent))
  intro hbelow
  have hlt := hrank hparent
  have hge := hle hbelow
  omega

/-- The ancestors of a class are the class and the ancestors of its superclass. It is the recursion
that `ancestorsWithin` follows, without the bound. -/
theorem Forest.ancestors_eq (name : String) :
    schema.ancestors name = name :: match schema.superclass? name with
      | some parent => schema.ancestors parent
      | none => [] := by
  obtain ⟨rank, hbound, hrank⟩ := h.ranked
  rw [ancestors, ancestorsWithin_eq hrank (hbound name)
    (Nat.le_succ_of_le (hbound name) : rank name ≤ schema.length + 1), ancestorsWithin]
  rfl

/-- `Schema.ancestors` lists the classes above, and no others. -/
theorem Forest.mem_ancestors_iff {name ancestor : String} :
    ancestor ∈ schema.ancestors name ↔ schema.Below name ancestor := by
  constructor
  · obtain ⟨rank, -, hrank⟩ := h.ranked
    intro hmem
    -- on the rank, which the superclass has less of
    induction hn : rank name using Nat.strongRecOn generalizing name with
    | ind n ih =>
        rw [h.ancestors_eq] at hmem
        rcases List.mem_cons.mp hmem with rfl | hmem
        · exact .refl _
        · cases hparent : schema.superclass? name with
          | none => simp [hparent] at hmem
          | some parent =>
              rw [hparent] at hmem
              exact .step hparent (ih _ (hn ▸ hrank hparent) hmem rfl)
  · intro hbelow
    induction hbelow with
    | refl => rw [h.ancestors_eq]; exact List.mem_cons_self ..
    | step hparent _ ih =>
        rw [h.ancestors_eq, hparent]
        exact List.mem_cons_of_mem _ ih

/-- `Schema.isSubclassOf` decides inheritance. -/
theorem Forest.isSubclassOf_iff {name ancestor : String} :
    schema.isSubclassOf name ancestor = true ↔ schema.Below name ancestor := by
  rw [isSubclassOf, List.contains_iff_mem, h.mem_ancestors_iff]

/-- A class below `ancestor` is `ancestor`, or it is below one of the subclasses that `ancestor`
lists. This turns the upward relation into the recursion of a walk downwards. -/
theorem Forest.below_cases {name ancestor : String} (hbelow : schema.Below name ancestor) :
    name = ancestor ∨ ∃ sub ∈ schema.subclasses ancestor, schema.Below name sub := by
  induction hbelow with
  | refl => exact .inl rfl
  | step hparent _ ih =>
      rcases ih with rfl | ⟨sub, hsub, hrest⟩
      · exact .inr ⟨_, h.mem_subclasses.mpr hparent, .refl _⟩
      · exact .inr ⟨sub, hsub, .step hparent hrest⟩

/-- A class among the `subclasses` of another is `Below` it. -/
theorem Forest.below_of_mem_subclasses {sub name : String}
    (hsub : sub ∈ schema.subclasses name) : schema.Below sub name :=
  .step (h.mem_subclasses.mp hsub) (.refl _)

/-- Nothing is below two different subclasses of one class. By `Below.total` one of the two would be
below the other one, and then their superclass would be below its own subclass. -/
theorem Forest.subclasses_disjoint {name parent a b : String} (hne : a ≠ b)
    (ha : a ∈ schema.subclasses parent) (hb : b ∈ schema.subclasses parent)
    (hbelowa : schema.Below name a) : ¬ schema.Below name b := by
  -- of two siblings below one another, the parent would be below one of them
  have hapart : ∀ {c d : String}, c ≠ d → c ∈ schema.subclasses parent →
      d ∈ schema.subclasses parent → ¬ schema.Below c d := by
    intro c d hcd hc hd hbelow
    cases hbelow with
    | refl => exact hcd rfl
    | step hparent hrest =>
        rw [h.mem_subclasses.mp hc] at hparent
        injection hparent with heq
        exact h.not_below_of_superclass? (h.mem_subclasses.mp hd) (heq ▸ hrest)
  intro hbelowb
  rcases hbelowa.total hbelowb with hab | hba
  · exact hapart hne ha hb hab
  · exact hapart (Ne.symm hne) hb ha hba

end

/-! ## Declarations

A schema grows by one class at a time, at the top or below a class. `GrowsBy` has what both have in
common, and `Forest.grow` is proved from it once. -/

/-- The schema without classes is a `Forest`. -/
theorem forest_nil : Forest [] where
  mem_subclasses := by simp [subclasses, superclass?, find?]
  siblings := by simp [subclasses, find?]
  ranked := ⟨fun _ => 0, by simp, by simp [superclass?, find?]⟩

/-- `grown` is `schema` with one class more. The superclasses and subclasses are those of before,
except that the new class has the superclass that it names and is listed last there. It has no
subclasses yet. -/
structure GrowsBy (schema grown : Schema) (name : String) (superclass : Option String) :
    Prop where
  /-- There is one class more. -/
  length : grown.length = schema.length + 1
  /-- The class is new. -/
  fresh : schema.declares name = false
  /-- Its superclass is not. -/
  known : ∀ parent ∈ superclass, schema.declares parent = true
  /-- The superclasses. -/
  superclass?_eq : ∀ other,
    grown.superclass? other = if other = name then superclass else schema.superclass? other
  /-- The subclasses. -/
  subclasses_eq : ∀ other, grown.subclasses other =
    if other = name then []
    else schema.subclasses other ++ if superclass = some other then [name] else []

section

variable {schema grown : Schema} {name : String} {superclass : Option String}
variable (h : schema.Forest) (hgrow : schema.GrowsBy grown name superclass)

include hgrow

/-- A class that was declared before is not the new one, which is `fresh`. -/
theorem GrowsBy.ne_of_declares {other : String} (hother : schema.declares other = true) :
    other ≠ name := by
  rintro rfl
  simp [hgrow.fresh] at hother

/-- A class with a `superclass?` of before is not the new one. -/
theorem GrowsBy.ne_of_superclass? {other parent : String}
    (hparent : schema.superclass? other = some parent) : other ≠ name :=
  hgrow.ne_of_declares (declares_of_superclass? hparent)

include h

/-- After the growth, too, the `subclasses` of a class are those with that superclass. -/
theorem GrowsBy.mem_subclasses_iff {other parent : String} :
    other ∈ grown.subclasses parent ↔ grown.superclass? other = some parent := by
  rw [hgrow.superclass?_eq, hgrow.subclasses_eq]
  by_cases hparent : parent = name
  · -- nothing is listed below the new class, which nothing of before can name
    subst hparent
    rw [if_pos rfl]
    split
    next => exact ⟨by simp, fun heq => absurd rfl (hgrow.ne_of_declares (hgrow.known _ heq))⟩
    next =>
      exact ⟨by simp, fun heq => absurd rfl (hgrow.ne_of_declares (h.declares_superclass heq))⟩
  · rw [if_neg hparent, List.mem_append, h.mem_subclasses]
    by_cases hother : other = name
    · -- the new class is listed below the one that it names
      subst hother
      rw [if_pos rfl]
      constructor
      · rintro (hold | hnew)
        · exact absurd rfl (hgrow.ne_of_superclass? hold)
        · by_contra hne
          simp [hne] at hnew
      · intro heq
        simp [heq]
    · rw [if_neg hother]
      constructor
      · rintro (hold | hnew)
        · exact hold
        · split at hnew
          · exact absurd (List.mem_singleton.mp hnew) hother
          · simp at hnew
      · exact Or.inl

/-- The new class is listed once among `subclasses`, as it is not among the subclasses of before. -/
theorem GrowsBy.nodup_subclasses (parent : String) : (grown.subclasses parent).Nodup := by
  rw [hgrow.subclasses_eq]
  split
  · exact List.nodup_nil
  · split
    · rw [List.nodup_append]
      refine ⟨h.siblings parent, List.nodup_singleton _, ?_⟩
      intro a ha b hb
      rw [List.mem_singleton.mp hb]
      exact hgrow.ne_of_superclass? (h.mem_subclasses.mp ha)
    · rw [List.append_nil]
      exact h.siblings parent

/-- The new class gets the number of classes, `grown.length`, as its rank. That is higher than every
rank of before, and nobody is below it yet. -/
theorem GrowsBy.exists_rank : ∃ rank : String → Nat, (∀ other, rank other ≤ grown.length) ∧
    ∀ {other parent : String}, grown.superclass? other = some parent →
      rank parent < rank other := by
  obtain ⟨rank, hbound, hrank⟩ := h.ranked
  refine ⟨fun other => if other = name then schema.length + 1 else rank other, ?_, ?_⟩
  · intro other
    dsimp only
    have hother := hbound other
    rw [hgrow.length]
    split <;> omega
  · intro other parent hparent
    rw [hgrow.superclass?_eq] at hparent
    dsimp only
    split at hparent
    next heq =>
      rw [if_neg (hgrow.ne_of_declares (hgrow.known parent hparent)), if_pos heq]
      have hother := hbound parent
      omega
    next hne =>
      rw [if_neg (hgrow.ne_of_declares (h.declares_superclass hparent)), if_neg hne]
      exact hrank hparent

/-- A forest that grows by a class, `GrowsBy`, is a forest. Each field is one of the lemmas
above. -/
theorem Forest.grow : grown.Forest where
  mem_subclasses := hgrow.mem_subclasses_iff h
  siblings := hgrow.nodup_subclasses h
  ranked := hgrow.exists_rank h

/-- A new class changes nothing about what a class of before is below, as no superclass of before
has changed. -/
theorem GrowsBy.below_iff {other ancestor : String} (hother : other ≠ name) :
    grown.Below other ancestor ↔ schema.Below other ancestor := by
  constructor
  · intro hbelow
    induction hbelow with
    | refl => exact .refl _
    | step hparent _ ih =>
        rw [hgrow.superclass?_eq, if_neg hother] at hparent
        exact .step hparent (ih (hgrow.ne_of_declares (h.declares_superclass hparent)))
  · intro hbelow
    induction hbelow with
    | refl => exact .refl _
    | step hparent _ ih =>
        exact .step (by rw [hgrow.superclass?_eq, if_neg hother]; exact hparent)
          (ih (hgrow.ne_of_declares (h.declares_superclass hparent)))

end

/-- A new class stands behind the others and is found under its name. -/
theorem find?_append_fresh {schema : Schema} {c : ClassDef}
    (hfresh : schema.declares c.name = false) (other : String) :
    find? (schema ++ [c]) other = if other = c.name then some c else schema.find? other := by
  rw [find?_append_singleton]
  by_cases hother : other = c.name
  · subst hother
    have hnone : schema.find? c.name = none := by simpa [declares] using hfresh
    simp [hnone]
  · rw [if_neg (Ne.symm hother), if_neg hother, Option.or_none]

/-- A new class stands behind the others with its clusters. -/
theorem clusters_append_fresh {schema : Schema} {c : ClassDef}
    (hfresh : schema.declares c.name = false) (other : String) :
    clusters (schema ++ [c]) other =
      if other = c.name then c.clusters else schema.clusters other := by
  unfold clusters
  rw [find?_append_fresh hfresh]
  split
  · rfl
  · rfl

/-- A new class is abstract or not, and the others stay as they are. -/
theorem isAbstract_append_fresh {schema : Schema} {c : ClassDef}
    (hfresh : schema.declares c.name = false) (other : String) :
    isAbstract (schema ++ [c]) other =
      if other = c.name then c.isAbstract else schema.isAbstract other := by
  unfold isAbstract
  rw [find?_append_fresh hfresh]
  split
  · rfl
  · rfl

/-- `update` leaves alone whatever `part` of a class `change` leaves alone. The lemmas about the
single parts, below, read it back through the functions that look a class up. -/
theorem map_find?_update (schema : Schema) (name : String) {change : ClassDef → ClassDef}
    (hname : ∀ c, (change c).name = c.name) {β : Type} {part : ClassDef → β}
    (hpart : ∀ c, part (change c) = part c) (other : String) :
    ((schema.update name change).find? other).map part = (schema.find? other).map part := by
  rw [find?_update hname, Option.map_map]
  congr 1
  funext c
  show part (if c.name == name then change c else c) = part c
  split
  · exact hpart c
  · rfl

/-- `update` leaves the superclasses alone, if the change keeps name and superclass of the class. -/
theorem superclass?_update {schema : Schema} {name : String} {change : ClassDef → ClassDef}
    (hname : ∀ c, (change c).name = c.name)
    (hsuper : ∀ c, (change c).superclass = c.superclass) (other : String) :
    (schema.update name change).superclass? other = schema.superclass? other := by
  have hmap := congrArg (·.bind id) (map_find?_update schema name hname hsuper other)
  rwa [Option.bind_map, Option.bind_map] at hmap

/-- `update` declares and drops no class, if the change keeps the name. -/
theorem declares_update {schema : Schema} {name : String} {change : ClassDef → ClassDef}
    (hname : ∀ c, (change c).name = c.name) (other : String) :
    (schema.update name change).declares other = schema.declares other := by
  unfold declares
  rw [find?_update hname, Option.isSome_map]

/-- `update` leaves the clusters of the classes alone, if the change does. -/
theorem clusters_update {schema : Schema} {name : String} {change : ClassDef → ClassDef}
    (hname : ∀ c, (change c).name = c.name)
    (hclusters : ∀ c, (change c).clusters = c.clusters) (other : String) :
    (schema.update name change).clusters other = schema.clusters other :=
  congrArg (·.getD []) (map_find?_update schema name hname hclusters other)

/-- `update` leaves alone which classes are abstract, if the change does. -/
theorem isAbstract_update {schema : Schema} {name : String} {change : ClassDef → ClassDef}
    (hname : ∀ c, (change c).name = c.name)
    (habstract : ∀ c, (change c).isAbstract = c.isAbstract) (other : String) :
    (schema.update name change).isAbstract other = schema.isAbstract other := by
  have hmap := congrArg (Option.any id) (map_find?_update schema name hname habstract other)
  rwa [Option.any_map, Option.any_map] at hmap

/-- `update` leaves the lists of subclasses alone, if the change does. -/
theorem subclasses_update {schema : Schema} {name : String} {change : ClassDef → ClassDef}
    (hname : ∀ c, (change c).name = c.name)
    (hsub : ∀ c, (change c).subclasses = c.subclasses) (other : String) :
    (schema.update name change).subclasses other = schema.subclasses other :=
  congrArg (·.getD []) (map_find?_update schema name hname hsub other)

/-- `withSubclass` lists the subclass last under `parent`, and nowhere else. `hdeclared`: without
the class there would be no list to extend. -/
theorem subclasses_withSubclass {schema : Schema} {parent name : String}
    (hdeclared : schema.declares parent = true) (other : String) :
    (schema.update parent (ClassDef.withSubclass name)).subclasses other =
      schema.subclasses other ++ if some parent = some other then [name] else [] := by
  have hname : ∀ c, (ClassDef.withSubclass name c).name = c.name := fun _ => rfl
  unfold subclasses
  rw [find?_update hname]
  by_cases hother : parent = other
  · subst hother
    obtain ⟨c, hfind⟩ := Option.isSome_iff_exists.mp hdeclared
    simp [hfind, name_of_find? hfind, ClassDef.withSubclass]
  · cases hfind : schema.find? other with
    | none => simp [hother]
    | some c => simp [name_of_find? hfind, hother, Ne.symm hother]

/-- A forest stays one under `update` when the change keeps name, superclass and subclasses.
Declaring a link is such a change. -/
theorem Forest.update {schema : Schema} (h : schema.Forest) {name : String}
    {change : ClassDef → ClassDef} (hname : ∀ c, (change c).name = c.name)
    (hsuper : ∀ c, (change c).superclass = c.superclass)
    (hsub : ∀ c, (change c).subclasses = c.subclasses) :
    (schema.update name change).Forest where
  mem_subclasses {_ _} := by
    rw [subclasses_update hname hsub, superclass?_update hname hsuper]
    exact h.mem_subclasses
  siblings parent := by
    rw [subclasses_update hname hsub]
    exact h.siblings parent
  ranked := by
    obtain ⟨rank, hbound, hrank⟩ := h.ranked
    refine ⟨rank, fun other => ?_, fun {_ _} hparent => ?_⟩
    · rw [Schema.update, List.length_map]
      exact hbound other
    · rw [superclass?_update hname hsuper] at hparent
      exact hrank hparent

/-- A class without a superclass grows the schema at the top. -/
theorem growsBy_top {schema : Schema} {c : ClassDef} (hfresh : schema.declares c.name = false)
    (hsuper : c.superclass = none) (hsub : c.subclasses = []) :
    schema.GrowsBy (schema ++ [c]) c.name none where
  length := by simp
  fresh := hfresh
  known := by simp
  superclass?_eq other := by
    unfold superclass?
    rw [find?_append_fresh hfresh]
    split
    · exact hsuper
    · rfl
  subclasses_eq other := by
    unfold subclasses
    rw [find?_append_fresh hfresh]
    split
    · simpa using hsub
    · simp

/-- A class declared below `parent` grows the schema there: `parent` lists it, and the class itself
stands behind the others. -/
theorem growsBy_below {schema : Schema} {c : ClassDef} {parent : String}
    (hfresh : schema.declares c.name = false) (hparent : schema.declares parent = true)
    (hsuper : c.superclass = some parent) (hsub : c.subclasses = []) :
    schema.GrowsBy (schema.update parent (ClassDef.withSubclass c.name) ++ [c]) c.name
      (some parent) := by
  have hname : ∀ k, (ClassDef.withSubclass c.name k).name = k.name := fun _ => rfl
  -- listing the class below its superclass declares nothing
  have hfresh' : (schema.update parent (ClassDef.withSubclass c.name)).declares c.name = false := by
    rw [declares_update hname]
    exact hfresh
  refine ⟨by simp [Schema.update], hfresh, by simpa using hparent, fun other => ?_,
    fun other => ?_⟩
  · have hupdate := @superclass?_update schema parent _ hname (fun _ => rfl) other
    unfold superclass? at hupdate ⊢
    rw [find?_append_fresh hfresh']
    split
    · exact hsuper
    · exact hupdate
  · have hupdate := @subclasses_withSubclass schema parent c.name hparent other
    unfold subclasses at hupdate ⊢
    rw [find?_append_fresh hfresh']
    split
    · simpa using hsub
    · exact hupdate

end Schema

end RecordQuery
