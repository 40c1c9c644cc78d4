import RecordQuery.Proofs.Schema

/-!
# `RecordQuery.Proofs.Walks`: the walks along the forest of classes end

The walks of the schema go on until nothing is left to visit: up a chain of superclasses, or down
through the subclasses with a list of classes still to visit. The model bounds their steps, so that
they are total functions, and a bound that is too small would cut a walk short. `Schema.Climbs`,
`Schema.LooksFor` and `Schema.Descends` describe the walks without a bound, as relations that hold
only of walks that end. In a forest each walk ends, and the bounded walks are these.

The measure of the walk downwards is `Schema.countBelow`, the number of declared classes below those
still to visit. Visiting a class takes it out of that number and puts its subclasses in its place,
below which nothing new is. For this the classes still to visit have to be `Schema.Apart`: none of
them is below another one. Then no class is met twice, and the measure goes down with every step.

The theorems:

* `Schema.Forest.climbs_ancestors`: the walk upwards ends with the ancestors.
* `Schema.Forest.looksFor_isSubclassOf`: the search upwards ends, and tells about inheritance.
* `Schema.Forest.descends_tree`: the walk downwards ends with the tree.
* `Schema.Forest.mem_tree_iff`, `Schema.Forest.nodup_tree`: the tree is every class below, once.
-/

set_option autoImplicit false

namespace RecordQuery

namespace Schema

/-! ## The walks

The walks of a program over its classes, as relations. Each says that the walk ends, and with what.
-/

/-- The walk upwards from a class, by `superclass?`, ends, having visited the listed classes. There
is no derivation for a walk that goes round in circles. -/
inductive Climbs (schema : Schema) : String → List String → Prop
  /-- There is nothing above. -/
  | top {name : String} : schema.superclass? name = none → Climbs schema name [name]
  /-- The walk goes on with the superclass. -/
  | up {name parent : String} {above : List String} :
      schema.superclass? name = some parent → Climbs schema parent above →
      Climbs schema name (name :: above)

/-- The search for `ancestor` upwards from another class ends with the answer. -/
inductive LooksFor (schema : Schema) (ancestor : String) : String → Bool → Prop
  /-- The class is reached. -/
  | found : LooksFor schema ancestor ancestor true
  /-- There is nothing above. -/
  | missed {name : String} :
      name ≠ ancestor → schema.superclass? name = none → LooksFor schema ancestor name false
  /-- The search goes on with the superclass. -/
  | up {name parent : String} {answer : Bool} :
      name ≠ ancestor → schema.superclass? name = some parent →
      LooksFor schema ancestor parent answer → LooksFor schema ancestor name answer

/-- The walk downwards with some classes still to visit ends, having visited the listed ones. The
`subclasses` of a class are put behind the others, so the walk goes level by level. -/
inductive Descends (schema : Schema) : List String → List String → Prop
  /-- Nothing is left to visit. -/
  | done : Descends schema [] []
  /-- The first class is visited, and its subclasses are put behind the others. -/
  | visit {name : String} {pending visited : List String} :
      Descends schema (pending ++ schema.subclasses name) visited →
      Descends schema (name :: pending) (name :: visited)

/-! ## Upwards

A class has one superclass at most, so the walk upwards is a list, and the search for a class goes
along it. -/

section

variable {schema : Schema} (h : schema.Forest)

include h

/-- The walk upwards from a class ends with `Schema.ancestors`. The induction is on the rank. -/
theorem Forest.climbs_ancestors (name : String) : schema.Climbs name (schema.ancestors name) := by
  obtain ⟨rank, -, hrank⟩ := h.ranked
  induction hn : rank name using Nat.strongRecOn generalizing name with
  | ind n ih =>
      rw [h.ancestors_eq]
      cases hparent : schema.superclass? name with
      | none => exact .top hparent
      | some parent => exact .up hparent (ih _ (hn ▸ hrank hparent) parent rfl)

end

/-- The search for `ancestor` finds it exactly if the walk upwards visits it. -/
theorem Climbs.looksFor {schema : Schema} {name : String} {above : List String}
    (hclimbs : schema.Climbs name above) (ancestor : String) :
    schema.LooksFor ancestor name (above.contains ancestor) := by
  induction hclimbs with
  | @top name hparent =>
      by_cases hname : name = ancestor
      · subst hname
        simpa using LooksFor.found
      · simpa [Ne.symm hname] using LooksFor.missed hname hparent
  | @up name parent above hparent _ ih =>
      by_cases hname : name = ancestor
      · subst hname
        simpa using LooksFor.found
      · simpa [Ne.symm hname] using LooksFor.up hname hparent ih

/-- The search for a class upwards from another one ends, and its answer is
`Schema.isSubclassOf`. -/
theorem Forest.looksFor_isSubclassOf {schema : Schema} (h : schema.Forest)
    (name ancestor : String) :
    schema.LooksFor ancestor name (schema.isSubclassOf name ancestor) :=
  (h.climbs_ancestors name).looksFor ancestor

/-! ## Downwards

The walk visits the classes of one level before those of the next. What it still has to visit is
kept `Apart`, so no class is visited twice, and `countBelow` falls with each step. -/

/-- Classes of which none is `Below` another one. -/
def Apart (schema : Schema) (names : List String) : Prop :=
  names.Pairwise fun a b => ¬ schema.Below a b ∧ ¬ schema.Below b a

/-- The number of declared classes `Below` one of `names`: the steps that the walk downwards still
takes. -/
def countBelow (schema : Schema) (names : List String) : Nat :=
  schema.countP fun c => names.any fun name => schema.isSubclassOf c.name name

/-- Replacing a class by its subclasses keeps the classes apart. Two subclasses of one class have
nothing below them in common (`Forest.subclasses_disjoint`), and a subclass that was below another
class would put its superclass below it, or the other way round. -/
theorem Forest.apart_step {schema : Schema} (h : schema.Forest) {name : String}
    {pending : List String} (hapart : schema.Apart (name :: pending)) :
    schema.Apart (pending ++ schema.subclasses name) := by
  obtain ⟨hfirst, hrest⟩ := List.pairwise_cons.mp hapart
  -- siblings are apart, and what is apart from a class is apart from what is below it
  refine List.pairwise_append.mpr ⟨hrest, ?_, ?_⟩
  · refine (h.siblings name).imp_of_mem fun {a b} ha hb hne => ?_
    exact ⟨fun hab => h.subclasses_disjoint hne ha hb (.refl a) hab,
      fun hba => h.subclasses_disjoint hne ha hb hba (.refl b)⟩
  · intro other hother sub hsub
    have hsubName := h.mem_subclasses.mp hsub
    obtain ⟨hbefore, hafter⟩ := hfirst other hother
    refine ⟨fun hbelow => hafter (hbelow.trans (.step hsubName (.refl _))), fun hbelow => ?_⟩
    cases hbelow with
    | refl => exact hafter (.step hsubName (.refl _))
    | step hparent hrest =>
        rw [hsubName] at hparent
        injection hparent with heq
        exact hbefore (heq ▸ hrest)

/-- A property that holds less often, and not of some element of which another one holds, is counted
less often by `List.countP`. -/
theorem countP_lt {α : Type} {fewer more : α → Bool} {xs : List α}
    (himp : ∀ x, fewer x = true → more x = true) {x : α} (hx : x ∈ xs) (hmore : more x = true)
    (hfewer : ¬ fewer x = true) : xs.countP fewer < xs.countP more := by
  obtain ⟨before, behind, rfl⟩ := List.append_of_mem hx
  have hbefore := List.countP_mono_left (l := before) fun y _ => himp y
  have hbehind := List.countP_mono_left (l := behind) fun y _ => himp y
  rw [List.countP_append, List.countP_append, List.countP_cons_of_pos hmore,
    List.countP_cons_of_neg hfewer]
  omega

/-- Replacing a class by its subclasses makes `countBelow` smaller: the class itself is below none
of the others. -/
theorem Forest.countBelow_step {schema : Schema} (h : schema.Forest) {name : String}
    {pending : List String} (hapart : schema.Apart (name :: pending))
    (hdeclared : schema.declares name = true) :
    schema.countBelow (pending ++ schema.subclasses name) <
      schema.countBelow (name :: pending) := by
  obtain ⟨c, hfind⟩ := Option.isSome_iff_exists.mp hdeclared
  have hname := name_of_find? hfind
  -- what is below the new classes is below the old ones, and the class itself no longer is
  have himp : ∀ k : ClassDef,
      ((pending ++ schema.subclasses name).any fun n => schema.isSubclassOf k.name n) = true →
      ((name :: pending).any fun n => schema.isSubclassOf k.name n) = true := by
    intro k hk
    simp only [List.any_eq_true, h.isSubclassOf_iff, List.mem_append, List.mem_cons] at hk ⊢
    obtain ⟨start, hstart | hstart, hbelow⟩ := hk
    · exact ⟨start, .inr hstart, hbelow⟩
    · exact ⟨name, .inl rfl, hbelow.trans (h.below_of_mem_subclasses hstart)⟩
  have hold : ((name :: pending).any fun n => schema.isSubclassOf c.name n) = true := by
    simp only [List.any_eq_true, h.isSubclassOf_iff, hname]
    exact ⟨name, List.mem_cons_self .., .refl name⟩
  have hnew : ¬ ((pending ++ schema.subclasses name).any
      fun n => schema.isSubclassOf c.name n) = true := by
    simp only [List.any_eq_true, h.isSubclassOf_iff, hname, List.mem_append]
    rintro ⟨start, hstart | hstart, hbelow⟩
    · exact ((List.pairwise_cons.mp hapart).1 start hstart).1 hbelow
    · exact h.not_below_of_superclass? (h.mem_subclasses.mp hstart) hbelow
  exact countP_lt himp (mem_of_find? hfind) hold hnew

/-- With as many steps as `countBelow` says (`hsteps`), the walk downwards from declared classes
ends. -/
theorem Forest.descends_treeWithin {schema : Schema} (h : schema.Forest) {steps : Nat}
    {pending : List String} (hapart : schema.Apart pending)
    (hdeclared : ∀ name ∈ pending, schema.declares name = true)
    (hsteps : schema.countBelow pending ≤ steps) :
    schema.Descends pending (schema.treeWithin steps pending) := by
  -- a class that is visited leaves one class less below those that are pending
  induction steps generalizing pending with
  | zero =>
      match pending with
      | [] => exact .done
      | first :: pending =>
          have hlt := h.countBelow_step hapart (hdeclared first (List.mem_cons_self ..))
          omega
  | succ steps ih =>
      match pending with
      | [] => exact .done
      | first :: pending =>
          have hlt := h.countBelow_step hapart (hdeclared first (List.mem_cons_self ..))
          refine .visit (ih (h.apart_step hapart) ?_ (by omega))
          intro other hother
          rcases List.mem_append.mp hother with hother | hother
          · exact hdeclared other (List.mem_cons_of_mem _ hother)
          · exact declares_of_superclass? (h.mem_subclasses.mp hother)

/-- The walk downwards from a class ends with `Schema.tree`, whether the class is declared or
not. -/
theorem Forest.descends_tree {schema : Schema} (h : schema.Forest) (name : String) :
    schema.Descends [name] (schema.tree name) := by
  cases hdeclared : schema.declares name with
  | true =>
      refine h.descends_treeWithin (List.pairwise_singleton _ _) (by simpa using hdeclared) ?_
      exact Nat.le_succ_of_le List.countP_le_length
  | false =>
      -- a class that is not declared has no subclasses, and is all that is visited
      have hnone : schema.subclasses name = [] := by
        have hfind : schema.find? name = none := by simpa [declares] using hdeclared
        simp [subclasses, hfind]
      have htree : schema.tree name = [name] := by simp [tree, treeWithin, hnone]
      rw [htree]
      exact .visit (by rw [hnone]; exact .done)

/-- The walk downwards visits the classes `Below` those it starts from, and no others. -/
theorem Descends.mem_iff {schema : Schema} (h : schema.Forest) {pending visited : List String}
    (hdescends : schema.Descends pending visited) {name : String} :
    name ∈ visited ↔ ∃ start ∈ pending, schema.Below name start := by
  induction hdescends with
  | done => simp
  | @visit first pending visited _ ih =>
      rw [List.mem_cons, ih]
      constructor
      · rintro (rfl | ⟨start, hstart, hbelow⟩)
        · exact ⟨_, List.mem_cons_self .., .refl _⟩
        · rcases List.mem_append.mp hstart with hstart | hstart
          · exact ⟨start, List.mem_cons_of_mem _ hstart, hbelow⟩
          · exact ⟨first, List.mem_cons_self ..,
              hbelow.trans (h.below_of_mem_subclasses hstart)⟩
      · rintro ⟨start, hstart, hbelow⟩
        rcases List.mem_cons.mp hstart with rfl | hstart
        · -- what is below the class that is visited is the class, or below a subclass that is now
          -- pending
          rcases h.below_cases hbelow with rfl | ⟨sub, hsub, hbelow⟩
          · exact .inl rfl
          · exact .inr ⟨sub, List.mem_append_right _ hsub, hbelow⟩
        · exact .inr ⟨start, List.mem_append_left _ hstart, hbelow⟩

/-- The walk downwards from classes that are `Apart` visits no class twice. -/
theorem Descends.nodup {schema : Schema} (h : schema.Forest) {pending visited : List String}
    (hdescends : schema.Descends pending visited) (hapart : schema.Apart pending) :
    visited.Nodup := by
  induction hdescends with
  | done => exact List.nodup_nil
  | @visit first pending visited hrest ih =>
      refine List.nodup_cons.mpr ⟨fun hmem => ?_, ih (h.apart_step hapart)⟩
      obtain ⟨start, hstart, hbelow⟩ := (hrest.mem_iff h).mp hmem
      rcases List.mem_append.mp hstart with hstart | hstart
      · exact ((List.pairwise_cons.mp hapart).1 start hstart).1 hbelow
      · exact h.not_below_of_superclass? (h.mem_subclasses.mp hstart) hbelow

/-- `Schema.tree` lists the classes below a class, which are those that `Schema.isSubclassOf`
accepts. -/
theorem Forest.mem_tree_iff {schema : Schema} (h : schema.Forest) {name start : String} :
    name ∈ schema.tree start ↔ schema.Below name start := by
  rw [(h.descends_tree start).mem_iff h]
  simp

/-- `schema.tree` lists no class twice. -/
theorem Forest.nodup_tree {schema : Schema} (h : schema.Forest) (start : String) :
    (schema.tree start).Nodup :=
  (h.descends_tree start).nodup h (List.pairwise_singleton _ _)

end Schema

end RecordQuery
