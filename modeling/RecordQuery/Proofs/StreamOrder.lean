import RecordQuery.Proofs.Mirror
import RecordQuery.Proofs.Streams

/-!
# `RecordQuery.Proofs.StreamOrder`: streams that give records in order

A merge takes the least of the heads of its inputs. When every input is in order, its head comes
before all that the input still gives, and so the least head comes before all that the merge still
gives.

`Stream.Ascends` says that a stream is in order, and a merge that has been pulled keeps a second
invariant beside it: `HeadLeads`, each head comes before what its input still gives. One step of a
pull is described by `AscendingStep`, which `Stream.pullWithin_ascends` proves by induction on the
depth of the stream; the lemmas before it take one function of the merge each, `nextHead`,
`firstHeads`, `refill`, `leastHead` and `pullLeast`, for any step that is an `AscendingStep` at
smaller depth.

The order of ORDER BY keys has to be total for this, and with floating-point numbers it is not.
`IsSortKey` is what is asked of the keys; records that are exact have such keys
(`orderKey_isSortKey`). The results are about the contents of streams, `Contents.Gives`, and not
about what a filter makes of them. `Stream.concat` gives one input after the other, and no order is
claimed for it.

The theorems:

* `compareKeys_totalOn`: ORDER BY keys without floating-point numbers are totally ordered.
* `Stream.pull_ascends`: a pull of a stream in order gives a record that precedes all that is left,
  and leaves a stream in order.
* `Stream.draws_ascending`: the records drawn from a stream in order are in order.
-/

set_option autoImplicit false

namespace RecordQuery

/-! ## ORDER BY keys

A key has a value for each item of ORDER BY, and is compared item by item. The comparison is total
where it is total at each place, which `KeyWithin` says with one property for each place. -/

/-- The order that an item of ORDER BY asks for: `Value.compare`, turned around by DESC. -/
def OrderItem.compare (item : OrderItem) (a b : Value) : Ordering :=
  match item.direction with
  | .asc => a.compare b
  | .desc => (a.compare b).swap

/-- `compareKeys` compares ORDER BY keys item by item, and the first difference decides. -/
theorem compareKeys_cons (item : OrderItem) (items : List OrderItem) (a b : Value)
    (as bs : List Value) :
    compareKeys (item :: items) (a :: as) (b :: bs) =
      (item.compare a b).then (compareKeys items as bs) := rfl

/-- An item of ORDER BY orders values totally where `Value.compare` does: DESC turns a total order
around. -/
theorem OrderItem.totalOn (item : OrderItem) {p : Value → Prop} (h : TotalOn Value.compare p) :
    TotalOn item.compare p := by
  unfold OrderItem.compare
  cases item.direction with
  | asc => exact h
  | desc => exact h.reversed

/-- Each value of a key has the property of its place. `TotalOn` is relative to a property, and the
columns of a query have different ones. -/
def KeyWithin (places : List (Value → Prop)) (key : List Value) : Prop :=
  List.Forall₂ (fun place v => place v) places key

/-- Exchanging two ORDER BY keys turns `compareKeys` around. -/
theorem compareKeys_swap {order : List OrderItem} {places : List (Value → Prop)}
    (hplaces : ∀ place ∈ places, TotalOn Value.compare place) {a b : List Value}
    (ha : KeyWithin places a) (hb : KeyWithin places b) :
    compareKeys order b a = (compareKeys order a b).swap := by
  induction places generalizing order a b with
  | nil =>
      cases ha
      cases hb
      cases order <;> rfl
  | cons place places ih =>
      obtain ⟨hplace, hplaces⟩ := List.forall_mem_cons.mp hplaces
      obtain ⟨v, vs, hv, hvs, rfl⟩ := List.forall₂_cons_left_iff.mp ha
      obtain ⟨w, ws, hw, hws, rfl⟩ := List.forall₂_cons_left_iff.mp hb
      cases order with
      | nil => rfl
      | cons item items =>
          rw [compareKeys_cons, compareKeys_cons, swap_then, (item.totalOn hplace).swap hv hw,
            ih hplaces hvs hws]

/-- `compareKeys` is transitive on keys that are `KeyWithin` totally ordered places. -/
theorem compareKeys_trans {order : List OrderItem} {places : List (Value → Prop)}
    (hplaces : ∀ place ∈ places, TotalOn Value.compare place) {a b c : List Value}
    (ha : KeyWithin places a) (hb : KeyWithin places b) (hc : KeyWithin places c)
    (hab : (compareKeys order a b).isLE = true) (hbc : (compareKeys order b c).isLE = true) :
    (compareKeys order a c).isLE = true := by
  -- on the places: each item of ORDER BY compares values of one place
  induction places generalizing order a b c with
  | nil =>
      cases ha
      cases hc
      cases order <;> rfl
  | cons place places ih =>
      obtain ⟨hplace, hplaces⟩ := List.forall_mem_cons.mp hplaces
      obtain ⟨v, vs, hv, hvs, rfl⟩ := List.forall₂_cons_left_iff.mp ha
      obtain ⟨w, ws, hw, hws, rfl⟩ := List.forall₂_cons_left_iff.mp hb
      obtain ⟨x, xs, hx, hxs, rfl⟩ := List.forall₂_cons_left_iff.mp hc
      cases order with
      | nil => rfl
      | cons item items =>
          rw [compareKeys_cons] at hab hbc ⊢
          exact (item.totalOn hplace).isLE_then hv hw hx (ih hplaces hvs hws hxs) hab hbc

/-- ORDER BY keys are totally ordered where the values at each place are: `compareKeys` is the
lexicographic order. -/
theorem compareKeys_totalOn_places (order : List OrderItem) {places : List (Value → Prop)}
    (hplaces : ∀ place ∈ places, TotalOn Value.compare place) :
    TotalOn (compareKeys order) (KeyWithin places) where
  swap := compareKeys_swap hplaces
  isLE_trans := compareKeys_trans hplaces

/-- A key with a value for every item of ORDER BY, and without floating-point numbers.
`Value.compare` is total on such values. -/
def IsSortKey (order : List OrderItem) (key : List Value) : Prop :=
  key.length = order.length ∧ Value.areExact key = true

/-- A key that `IsSortKey` has an exact value at each place. -/
theorem IsSortKey.within {order : List OrderItem} {key : List Value} (h : IsSortKey order key) :
    KeyWithin (List.replicate order.length fun v => v.isExact = true) key := by
  unfold KeyWithin
  rw [← h.1, List.forall₂_iff_get]
  refine ⟨List.length_replicate, fun i hplace hkey => ?_⟩
  simpa using Value.areExact_iff.mp h.2 _ (List.get_mem key ⟨i, hkey⟩)

/-- ORDER BY keys without floating-point numbers are totally ordered, as `KeyWithin` with the same
property at each place. -/
theorem compareKeys_totalOn (order : List OrderItem) :
    TotalOn (compareKeys order) (IsSortKey order) := by
  refine (compareKeys_totalOn_places order fun place hplace => ?_).mono IsSortKey.within
  rw [List.eq_of_mem_replicate hplace]
  exact Value.totalOn_exact

section

variable {load : Rid → Option Record}

mutual

/-- What an exact value leads to is exact: links go to records of the store, which `hload` says are
exact. -/
theorem Value.follow_isExact (hload : ∀ rid r, load rid = some r → r.isExact = true)
    (name : String) : ∀ {v : Value}, v.isExact = true → (v.follow load name).isExact = true
  | .link rid, _ => by
      unfold Value.follow
      split
      next r hr => exact Record.get_isExact (hload rid r hr) name
      · rfl
  | .map entries, h => by
      unfold Value.follow
      exact Fields.get_isExact h name
  | .list items, h => by
      unfold Value.follow
      exact Value.followItems_isExact hload name h
  | .null, _ | .bool _, _ | .int _, _ | .string _, _ => rfl

/-- What exact values lead to by `followItems` is exact, as the records that `load` finds are. -/
theorem Value.followItems_isExact (hload : ∀ rid r, load rid = some r → r.isExact = true)
    (name : String) : ∀ {vs : List Value}, Value.areExact vs = true →
      Value.areExact (Value.followItems load name vs) = true
  | [], _ => rfl
  | v :: vs, h => by
      simp only [Value.areExact, Bool.and_eq_true] at h
      simp only [Value.followItems, Value.areExact, Bool.and_eq_true]
      exact ⟨Value.follow_isExact hload name h.1, Value.followItems_isExact hload name h.2⟩

end

/-- What a field chain reaches by `resolve` from an exact record is exact. -/
theorem FieldChain.resolve_isExact (hload : ∀ rid r, load rid = some r → r.isExact = true)
    (chain : FieldChain) {r : Record} (hr : r.isExact = true) :
    (chain.resolve load r).isExact = true := by
  unfold FieldChain.resolve
  have hfirst := Record.get_isExact hr chain.first
  generalize r.get chain.first = v at hfirst
  induction chain.hops generalizing v with
  | nil => exact hfirst
  | cons name names ih => exact ih _ (Value.follow_isExact hload name hfirst)

/-- The ORDER BY values of an exact record make up an `IsSortKey`. -/
theorem orderKey_isSortKey (hload : ∀ rid r, load rid = some r → r.isExact = true)
    (order : List OrderItem) {r : Record} (hr : r.isExact = true) :
    IsSortKey order (orderKey order load r) := by
  refine ⟨List.length_map _, Value.areExact_iff.mpr fun v hv => ?_⟩
  obtain ⟨item, -, rfl⟩ := List.mem_map.mp hv
  exact item.field.resolve_isExact hload hr

end

/-! ## Streams in order

`Stream.Ascends` follows the constructors of a stream, and so do the lemmas about its steps:
`nextUnseen_ascends` for a lookup, `startMerge_ascends` and `pullLeast_ascends` for a merge. -/

/-- ORDER BY allows `r` to stand before `s`. Records with equal keys precede each other. -/
def Precedes (order : List OrderItem) (load : Rid → Option Record) (r s : Record) : Prop :=
  (compareKeys order (orderKey order load r) (orderKey order load s)).isLE = true

/-- A head has the key of its record, and its record comes before all that the input gives. An input
that has ended has no head, and nothing is asked of it here: `HeadFits` says that it gives
nothing. -/
def HeadLeads (order : List OrderItem) (load : Rid → Option Record) (head : Option Head)
    (input : Stream) : Prop :=
  ∀ h, head = some h → h.key = orderKey order load h.record ∧ h.record.isExact = true ∧
    ∀ r, input.contents.Gives load r → Precedes order load h.record r

namespace Stream

open Steps

mutual

/-- The stream gives its records in the order asked for. One input after the other is in no order,
so `concat` does not ascend. A merge that has been pulled holds heads, and these lead their
inputs. -/
def Ascends (order : List OrderItem) (load : Rid → Option Record) : Stream → Prop
  | plain records => records.Pairwise (Precedes order load)
  | scan items _ => (items.filterMap Except.toOption).Pairwise (Precedes order load)
  | lookup rids => (rids.filterMap load).Pairwise (Precedes order load)
  | concat _ => False
  | merge inputs none _ => AllAscend order load inputs
  | merge inputs (some heads) _ =>
      AllAscend order load inputs ∧ List.Forall₂ (HeadLeads order load) heads inputs

/-- Each of the streams `Ascends`: it gives its records in the order asked for. -/
def AllAscend (order : List OrderItem) (load : Rid → Option Record) : List Stream → Prop
  | [] => True
  | input :: inputs => Ascends order load input ∧ AllAscend order load inputs

end

/-- `AllAscend` as a statement about the members of the list. -/
theorem allAscend_iff {order : List OrderItem} {load : Rid → Option Record}
    {inputs : List Stream} :
    AllAscend order load inputs ↔ ∀ input ∈ inputs, Ascends order load input := by
  induction inputs with
  | nil => simp [AllAscend]
  | cons input inputs ih => simp [AllAscend, ih]

/-- What several streams give, one of them gives: `contentsOfAll` is the union of their contents. -/
theorem exists_gives_of_all {load : Rid → Option Record} {streams : List Stream} {r : Record}
    (h : (contentsOfAll streams).Gives load r) : ∃ stream ∈ streams, stream.contents.Gives load r := by
  induction streams with
  | nil => simp [contentsOfAll, Contents.empty, Contents.Gives] at h
  | cons stream streams ih =>
      rcases Contents.gives_append.mp h with h | h
      · exact ⟨stream, List.mem_cons_self, h⟩
      · obtain ⟨other, hother, h⟩ := ih h
        exact ⟨other, List.mem_cons_of_mem _ hother, h⟩

/-- Every record that the contents may give (`Gives`) is exact. -/
def GivesExact (load : Rid → Option Record) (c : Contents) : Prop :=
  ∀ r, c.Gives load r → r.isExact = true

section

variable {order : List OrderItem} {load : Rid → Option Record}

/-- A step of a stream in order leaves a stream in order, and the record that it gives precedes all
that is left. `bound` is the depth up to which the step is known to do so, which is what the
induction is on. -/
def AscendingStep (order : List OrderItem) (load : Rid → Option Record) (step : PullStep)
    (bound : Nat) : Prop :=
  ∀ (s rest : Stream) (record : Option Record) (state after : PullState), Consistent s →
    depth s ≤ bound → GivesExact load s.contents → Ascends order load s →
    (step s).run.run state = (.ok (record, rest), after) →
    Ascends order load rest ∧
      ∀ r, record = some r → ∀ later, rest.contents.Gives load later → Precedes order load r later

variable {step : PullStep} {bound : Nat} {inputs rest : List Stream} {state after : PullState}
  {heads : List (Option Head)}

/-- The next head of an input in order leads what is left of the input. `hspec` says which records
the step gives, `hstep` in which order. -/
theorem nextHead_leads (hspec : StepSpec load step bound) (hstep : AscendingStep order load step bound)
    {input rest : Stream} {head : Option Head} (hconsistent : Consistent input)
    (hdepth : depth input ≤ bound) (hexact : GivesExact load input.contents)
    (hascends : Ascends order load input)
    (hrun : (nextHead step order load input).run.run state = (.ok (head, rest), after)) :
    Ascends order load rest ∧ HeadLeads order load head rest := by
  obtain ⟨⟨record, next⟩, mid, hinput, hpure⟩ := bind_ok hrun
  have hgives := hspec input state hconsistent hdepth
  rw [hinput] at hgives
  obtain ⟨hrest, hleads⟩ := hstep input next record state mid hconsistent hdepth hexact hascends
    hinput
  obtain ⟨rfl, rfl⟩ := Prod.mk.inj (pure_ok hpure).1
  refine ⟨hrest, fun h hh => ?_⟩
  obtain ⟨r, rfl, rfl⟩ := Option.map_eq_some_iff.mp hh
  exact ⟨rfl, hexact r (hgives.1.gives (.inl (by simp))), hleads r rfl⟩

/-- The heads that `firstHeads` reads off inputs in order lead what is left of them. -/
theorem firstHeads_leads (hspec : StepSpec load step bound)
    (hstep : AscendingStep order load step bound) (hconsistent : AllConsistent inputs)
    (hdepth : depthOfAll inputs ≤ bound) (hexact : GivesExact load (contentsOfAll inputs))
    (hascend : AllAscend order load inputs)
    (hrun : (firstHeads step order load inputs).run.run state = (.ok (heads, rest), after)) :
    AllAscend order load rest ∧ List.Forall₂ (HeadLeads order load) heads rest := by
  induction inputs generalizing state after heads rest with
  | nil =>
      obtain ⟨rfl, rfl⟩ := Prod.mk.inj (pure_ok hrun).1
      exact ⟨trivial, .nil⟩
  | cons input inputs ih =>
      rw [depthOfAll] at hdepth
      obtain ⟨⟨head, first⟩, mid, hinput, hmore⟩ := bind_ok hrun
      obtain ⟨⟨others, later⟩, last, hothers, hpure⟩ := bind_ok hmore
      obtain ⟨rfl, rfl⟩ := Prod.mk.inj (pure_ok hpure).1
      obtain ⟨hfirst, hleads⟩ := nextHead_leads hspec hstep hconsistent.1 (by omega)
        (fun r hr => hexact r (Contents.gives_append.mpr (.inl hr))) hascend.1 hinput
      obtain ⟨hlater, hrest⟩ := ih hconsistent.2 (by omega)
        (fun r hr => hexact r (Contents.gives_append.mpr (.inr hr))) hascend.2 hothers
      exact ⟨⟨hfirst, hlater⟩, .cons hleads hrest⟩

/-- The next head that `refill` reads off the input at `place` leads what is left of it. -/
theorem refill_leads (hspec : StepSpec load step bound)
    (hstep : AscendingStep order load step bound) {place : Nat} {head : Option Head}
    (hconsistent : AllConsistent inputs) (hdepth : depthOfAll inputs ≤ bound)
    (hexact : GivesExact load (contentsOfAll inputs)) (hascend : AllAscend order load inputs)
    (hleads : List.Forall₂ (HeadLeads order load) heads inputs)
    (hrun : (refill step order load place inputs).run.run state = (.ok (head, rest), after)) :
    AllAscend order load rest ∧ List.Forall₂ (HeadLeads order load) (heads.set place head) rest := by
  induction hleads generalizing place state after rest with
  | nil =>
      simp only [refill] at hrun
      obtain ⟨rfl, rfl⟩ := Prod.mk.inj (pure_ok hrun).1
      exact ⟨trivial, .nil⟩
  | @cons first input heads inputs hfirst hothers ih =>
      rw [depthOfAll] at hdepth
      have hexactFirst : GivesExact load input.contents :=
        fun r hr => hexact r (Contents.gives_append.mpr (.inl hr))
      have hexactOthers : GivesExact load (contentsOfAll inputs) :=
        fun r hr => hexact r (Contents.gives_append.mpr (.inr hr))
      cases place with
      | zero =>
          obtain ⟨⟨next, changed⟩, mid, hinput, hpure⟩ := bind_ok hrun
          obtain ⟨rfl, rfl⟩ := Prod.mk.inj (pure_ok hpure).1
          obtain ⟨hchanged, hnext⟩ := nextHead_leads hspec hstep hconsistent.1 (by omega)
            hexactFirst hascend.1 hinput
          exact ⟨⟨hchanged, hascend.2⟩, .cons hnext hothers⟩
      | succ place =>
          obtain ⟨⟨next, changed⟩, mid, hinput, hpure⟩ := bind_ok hrun
          obtain ⟨rfl, rfl⟩ := Prod.mk.inj (pure_ok hpure).1
          obtain ⟨hchanged, hrest⟩ := ih hconsistent.2 (by omega) hexactOthers hascend.2 hinput
          exact ⟨⟨hascend.1, hchanged⟩, .cons hfirst hrest⟩

/-- The least head comes before or with the best one so far and every head looked at. `leastHead`
compares keys only, so the heads have to have an `IsSortKey`. -/
theorem leastHead_least {place i : Nat} {best : Option (Nat × Head)} {least : Head}
    (hbest : ∀ b, best = some b → IsSortKey order b.2.key)
    (hheads : ∀ h, some h ∈ heads → IsSortKey order h.key)
    (hleast : leastHead order place best heads = some (i, least)) :
    IsSortKey order least.key ∧
      (∀ b, best = some b → (compareKeys order least.key b.2.key).isLE = true) ∧
      ∀ h, some h ∈ heads → (compareKeys order least.key h.key).isLE = true := by
  have htotal := compareKeys_totalOn order
  have hself {key : List Value} (hkey : IsSortKey order key) :
      (compareKeys order key key).isLE = true := by rw [htotal.refl hkey]; rfl
  induction heads generalizing place best with
  | nil =>
      obtain rfl : best = some (i, least) := hleast
      refine ⟨hbest _ rfl, fun b hb => ?_, by simp⟩
      obtain rfl := Option.some.inj hb
      exact hself (hbest _ rfl)
  | cons first heads ih =>
      have hrest : ∀ h, some h ∈ heads → IsSortKey order h.key :=
        fun h hh => hheads h (List.mem_cons_of_mem _ hh)
      cases first with
      | none => simpa using ih hbest hrest hleast
      | some first =>
          have hfirst := hheads first (List.mem_cons_self ..)
          -- the better of the first head and the best one so far stands before both
          obtain ⟨better, hbetter, hkey, hlefirst, hlebest⟩ : ∃ better : Nat × Head,
              leastHead order place best (some first :: heads) =
                leastHead order (place + 1) (some better) heads ∧
              IsSortKey order better.2.key ∧
              (compareKeys order better.2.key first.key).isLE = true ∧
              ∀ b, best = some b → (compareKeys order better.2.key b.2.key).isLE = true := by
            rcases leastHead_cons_some order place best first heads with
              ⟨hnext, hless⟩ | ⟨kept, rfl, hnot, hnext⟩
            · exact ⟨(place, first), hnext, hfirst, hself hfirst, fun b hb => by rw [hless b hb]; rfl⟩
            · have hkept := hbest kept rfl
              refine ⟨kept, hnext, hkept, ?_, fun b hb => ?_⟩
              · rw [htotal.swap hfirst hkept]
                cases hcmp : compareKeys order first.key kept.2.key with
                | lt => exact absurd hcmp hnot
                | eq | gt => rfl
              · obtain rfl := Option.some.inj hb
                exact hself hkept
          obtain ⟨hleastKey, hle, hothers⟩ := ih (fun b hb => Option.some.inj hb ▸ hkey) hrest
            (hbetter ▸ hleast)
          have hlebetter := hle better rfl
          refine ⟨hleastKey, fun b hb => ?_, fun h hh => ?_⟩
          · exact htotal.isLE_trans hleastKey hkey (hbest b hb) hlebetter (hlebest b hb)
          · rcases List.mem_cons.mp hh with hh | hh
            · obtain rfl := Option.some.inj hh
              exact htotal.isLE_trans hleastKey hkey hfirst hlebetter hlefirst
            · exact hothers h hh

/-- Every record that the inputs of a merge still give is led by one of the heads, as an input
without a head gives nothing, `hfits`. -/
theorem exists_leading_head (hfits : List.Forall₂ HeadFits heads inputs)
    (hleads : List.Forall₂ (HeadLeads order load) heads inputs) {r : Record}
    (hr : (contentsOfAll inputs).Gives load r) :
    ∃ h, some h ∈ heads ∧ Precedes order load h.record r := by
  induction hleads with
  | nil => simp [contentsOfAll, Contents.empty, Contents.Gives] at hr
  | @cons head input heads inputs hhead _ ih =>
      obtain ⟨hfit, hfits⟩ := List.forall₂_cons.mp hfits
      rcases Contents.gives_append.mp hr with hr | hr
      · cases head with
        | none =>
            rw [hfit rfl] at hr
            simp [Contents.empty, Contents.Gives] at hr
        | some h => exact ⟨h, List.mem_cons_self .., (hhead h rfl).2.2 r hr⟩
      · obtain ⟨h, hh, hprecedes⟩ := ih hfits hr
        exact ⟨h, List.mem_cons_of_mem _ hh, hprecedes⟩

/-- A head that leads its input has the `orderKey` of its record, which is exact. -/
theorem key_of_leads (hleads : List.Forall₂ (HeadLeads order load) heads inputs) {h : Head}
    (hh : some h ∈ heads) : h.key = orderKey order load h.record ∧ h.record.isExact = true := by
  induction hleads with
  | nil => cases hh
  | cons hhead _ ih =>
      rcases List.mem_cons.mp hh with rfl | hh
      · exact ⟨(hhead h rfl).1, (hhead h rfl).2.1⟩
      · exact ih hh

/-- What a merge still gives after `refill` has replaced one of its heads is the record of a head
that it had, or the inputs gave it. So taking a record adds nothing to what is left. -/
theorem gives_of_refill (hspec : StepSpec load step bound) (hconsistent : AllConsistent inputs)
    (hdepth : depthOfAll inputs ≤ bound) (hfits : List.Forall₂ HeadFits heads inputs) {place : Nat}
    (hplace : place < heads.length) {next : Option Head} {after : PullState}
    (hrefill : (refill step order load place inputs).run.run state = (.ok (next, rest), after))
    {timed : Bool} {later : Record}
    (hlater : (contents (merge rest (some (heads.set place next)) timed)).Gives load later) :
    (∃ h, some h ∈ heads ∧ h.record = later) ∨ (contentsOfAll inputs).Gives load later := by
  have htransfer := @refill_spec load step bound order hspec _ _ _ state hconsistent hdepth hfits
    hplace
  rw [hrefill] at htransfer
  -- a merge itself holds its heads only, one of them the new one; all else is in its inputs
  rcases Contents.gives_append.mp hlater with (hheld | hscanned | ⟨hlooked, -⟩) | hinputs
  · obtain ⟨head, hmem, hhead⟩ := List.mem_filterMap.mp hheld
    obtain ⟨h, rfl, rfl⟩ := Option.map_eq_some_iff.mp hhead
    rcases List.mem_or_eq_of_mem_set hmem with hmem | rfl
    · exact .inl ⟨h, hmem, rfl⟩
    · exact .inr (htransfer.1.gives (.inl (by simp)))
  · simp at hscanned
  · simp at hlooked
  · exact .inr (htransfer.1.gives (.inr hinputs))

/-- A lookup in order stays in order under `nextUnseen`, and the record that it gives precedes all
that it still finds. The identities it passes over were seen before, or have no record. -/
theorem nextUnseen_ascends {rids : List Rid} (seen : List Rid)
    (hascends : (rids.filterMap load).Pairwise (Precedes order load)) :
    ((nextUnseen load seen rids).2.1.filterMap load).Pairwise (Precedes order load) ∧
      ∀ r, (nextUnseen load seen rids).1 = some r →
        ∀ later ∈ (nextUnseen load seen rids).2.1.filterMap load, Precedes order load r later := by
  induction rids generalizing seen with
  | nil => exact ⟨hascends, by simp [nextUnseen]⟩
  | cons rid rids ih =>
      have hrest : (rids.filterMap load).Pairwise (Precedes order load) := by
        refine hascends.sublist ?_
        exact (List.sublist_cons_self rid rids).filterMap load
      simp only [nextUnseen]
      -- what is skipped leaves the others in order, and a record that is found stood before them
      split
      · exact ih seen hrest
      · split
        next r hr =>
          refine ⟨hrest, fun r' hr' => ?_⟩
          obtain rfl := Option.some.inj hr'
          rw [List.filterMap_cons_some hr] at hascends
          exact (List.pairwise_cons.mp hascends).1
        · exact ih (rid :: seen) hrest

/-- Taking the least head of a merge in order: it precedes the other heads by `leastHead_least`,
these lead their inputs, and the new head leads what is left of its own input. -/
theorem pullLeast_ascends (hspec : StepSpec load step bound)
    (hstep : AscendingStep order load step bound) {timed : Bool} {record : Option Record}
    {after : PullState} {left : Stream}
    (hload : ∀ rid r, load rid = some r → r.isExact = true)
    (hconsistent : AllConsistent inputs) (hdepth : depthOfAll inputs ≤ bound)
    (hfits : List.Forall₂ HeadFits heads inputs)
    (hexact : GivesExact load (contentsOfAll inputs)) (hascend : AllAscend order load inputs)
    (hleads : List.Forall₂ (HeadLeads order load) heads inputs)
    (hrun : (pullLeast step order load inputs heads timed).run.run state =
      (.ok (record, left), after)) :
    Ascends order load left ∧
      ∀ r, record = some r → ∀ later, left.contents.Gives load later →
        Precedes order load r later := by
  -- keys compare totally only where they are keys of exact records
  have hkey : ∀ h, some h ∈ heads → IsSortKey order h.key := by
    intro h hh
    obtain ⟨hkey, hexact⟩ := key_of_leads hleads hh
    rw [hkey]
    exact orderKey_isSortKey hload order hexact
  unfold pullLeast at hrun
  split at hrun
  next hnone =>
    obtain ⟨-, mid, -, hpure⟩ := bind_ok hrun
    obtain ⟨rfl, rfl⟩ := Prod.mk.inj (pure_ok hpure).1
    exact ⟨⟨hascend, hleads⟩, by simp⟩
  next place least hsome =>
    obtain ⟨⟨next, rest⟩, mid, hrefill, hpure⟩ := bind_ok hrun
    obtain ⟨rfl, rfl⟩ := Prod.mk.inj (pure_ok hpure).1
    have hplace := getElem?_leastHead hsome
    have hmem : some least ∈ heads := List.mem_of_getElem? hplace
    obtain ⟨hrest, hrestLeads⟩ := refill_leads hspec hstep hconsistent hdepth hexact hascend hleads
      hrefill
    refine ⟨⟨hrest, hrestLeads⟩, fun r hr later hlater => ?_⟩
    obtain rfl := Option.some.inj hr
    obtain ⟨hleastKey, -, hleast⟩ := leastHead_least (by simp) hkey hsome
    have hprecedes (h : Head) (hh : some h ∈ heads) : Precedes order load least.record h.record := by
      have hle := hleast h hh
      rwa [(key_of_leads hleads hmem).1, (key_of_leads hleads hh).1] at hle
    have hplaceLt : place < heads.length := (List.getElem?_eq_some_iff.mp hplace).1
    rcases gives_of_refill hspec hconsistent hdepth hfits hplaceLt hrefill hlater with
      ⟨h, hh, rfl⟩ | hgives
    · exact hprecedes h hh
    · -- the least head precedes the head of its input, which leads the record
      obtain ⟨h, hh, hlater⟩ := exists_leading_head hfits hleads hgives
      have hsortKey (r : Record) (hr : r.isExact = true) := orderKey_isSortKey hload order hr
      exact (compareKeys_totalOn order).isLE_trans (hsortKey _ (key_of_leads hleads hmem).2)
        (hsortKey _ (key_of_leads hleads hh).2) (hsortKey _ (hexact later hgives))
        (hprecedes h hh) hlater

/-- The first pull of a merge of streams in order fills the heads, and goes on as
`pullLeast_ascends`. -/
theorem startMerge_ascends (hspec : StepSpec load step bound)
    (hstep : AscendingStep order load step bound) {timed : Bool} {record : Option Record}
    {left : Stream} (hload : ∀ rid r, load rid = some r → r.isExact = true)
    (hconsistent : AllConsistent inputs) (hdepth : depthOfAll inputs ≤ bound)
    (hexact : GivesExact load (contentsOfAll inputs)) (hascend : AllAscend order load inputs)
    (hrun : (do
      let (heads, rest) ← firstHeads step order load inputs
      pullLeast step order load rest heads timed : Pull (Option Record × Stream)).run.run state =
        (.ok (record, left), after)) :
    Ascends order load left ∧
      ∀ r, record = some r → ∀ later, left.contents.Gives load later →
        Precedes order load r later := by
  obtain ⟨⟨heads, others⟩, mid, hheads, hleast⟩ := bind_ok hrun
  have hfirst := @firstHeads_spec load step bound order hspec inputs state hconsistent hdepth
  rw [hheads] at hfirst
  obtain ⟨htransfer, hothers, hless, hfits⟩ := hfirst
  obtain ⟨hrest, hleads⟩ := firstHeads_leads hspec hstep hconsistent hdepth hexact hascend hheads
  exact pullLeast_ascends hspec hstep hload hothers (by omega) hfits
    (fun r hr => hexact r (htransfer.gives (.inr hr))) hrest hleads hleast

end

/-- A pull of a stream in order gives a record that precedes all that is left, and leaves a stream
in order. The induction is on the depth up to which `pullWithin` looks into a stream. -/
theorem pullWithin_ascends {load : Rid → Option Record}
    (hload : ∀ rid r, load rid = some r → r.rid = rid)
    (hexactLoad : ∀ rid r, load rid = some r → r.isExact = true) (order : List OrderItem)
    (bound : Nat) : AscendingStep order load (pullWithin order load bound) bound := by
  -- a merge pulls its inputs, which are less deep than it is, so the induction is on the depth
  induction bound with
  | zero =>
      intro s rest record state after _ hdepth
      cases s <;> simp [depth] at hdepth
  | succ bound ih =>
      intro s rest record state after hconsistent hdepth hexact hascends hrun
      have hspec := pullWithin_spec hload order bound
      cases s with
      | plain records =>
          cases records with
          | nil =>
              obtain ⟨rfl, rfl⟩ := Prod.mk.inj (pure_ok hrun).1
              exact ⟨hascends, by simp⟩
          | cons first records =>
              obtain ⟨rfl, rfl⟩ := Prod.mk.inj (pure_ok hrun).1
              refine ⟨hascends.tail, fun r hr later hlater => ?_⟩
              obtain rfl := Option.some.inj hr
              have hleft : later ∈ records := by simpa [contents, Contents.Gives] using hlater
              exact List.rel_of_pairwise_cons hascends hleft
      | scan items timed =>
          cases items with
          | nil =>
              obtain ⟨-, mid, -, hpure⟩ := bind_ok hrun
              obtain ⟨rfl, rfl⟩ := Prod.mk.inj (pure_ok hpure).1
              exact ⟨hascends, by simp⟩
          | cons item items =>
              cases item with
              | error failure => cases hrun
              | ok first =>
                  obtain ⟨rfl, rfl⟩ := Prod.mk.inj (pure_ok hrun).1
                  refine ⟨hascends.tail, fun r hr later hlater => ?_⟩
                  obtain rfl := Option.some.inj hr
                  have hleft : .ok later ∈ items := by simpa [contents, Contents.Gives] using hlater
                  exact List.rel_of_pairwise_cons hascends (List.mem_filterMap.mpr ⟨_, hleft, rfl⟩)
      | lookup rids =>
          obtain ⟨hrest, hleads⟩ := nextUnseen_ascends state.seen hascends
          have hpair : (.ok ((nextUnseen load state.seen rids).1,
              lookup (nextUnseen load state.seen rids).2.1),
              { state with seen := (nextUnseen load state.seen rids).2.2 }) =
              ((.ok (record, rest), after) : Except Failure (Option Record × Stream) × PullState) :=
            hrun
          obtain ⟨rfl, rfl⟩ := Prod.mk.inj (Except.ok.inj (Prod.mk.inj hpair).1)
          refine ⟨hrest, fun r hr later hlater => hleads r hr later ?_⟩
          obtain ⟨hlooked, hlive⟩ : later.rid ∈ (nextUnseen load state.seen rids).2.1 ∧
              load later.rid = some later := by
            simpa [contents, Contents.Gives] using hlater
          exact List.mem_filterMap.mpr ⟨later.rid, hlooked, hlive⟩
      | concat inputs => exact hascends.elim
      | merge inputs heads timed =>
          simp only [depth] at hdepth
          cases heads with
          | some heads =>
              exact pullLeast_ascends hspec ih hexactLoad hconsistent.1 (by omega) hconsistent.2
                (fun r hr => hexact r (Contents.gives_append.mpr (.inr hr))) hascends.1 hascends.2
                hrun
          | none =>
              exact startMerge_ascends hspec ih hexactLoad hconsistent (by omega) hexact hascends
                hrun

/-- A pull of a stream in order gives a record that precedes all that is left, and leaves a stream
in order. `hload` says that records are found under their own identity, `hexactLoad` that they are
exact. -/
theorem pull_ascends {load : Rid → Option Record}
    (hload : ∀ rid r, load rid = some r → r.rid = rid)
    (hexactLoad : ∀ rid r, load rid = some r → r.isExact = true) {order : List OrderItem}
    {s rest : Stream} {record : Option Record} {state after : PullState}
    (hconsistent : Consistent s) (hexact : GivesExact load s.contents)
    (hascends : Ascends order load s)
    (hrun : (pull order load s).run.run state = (.ok (record, rest), after)) :
    Ascends order load rest ∧
      ∀ r, record = some r → ∀ later, rest.contents.Gives load later →
        Precedes order load r later :=
  pullWithin_ascends hload hexactLoad order s.depth s rest record state after hconsistent
    (Nat.le_refl _) hexact hascends hrun

/-- The records drawn from a stream in order are in order. The induction is on `Draws`, with
`pull_ascends` for each pull. -/
theorem draws_ascending {load : Rid → Option Record}
    (hload : ∀ rid r, load rid = some r → r.rid = rid)
    (hexactLoad : ∀ rid r, load rid = some r → r.isExact = true) {order : List OrderItem}
    {s t : Stream} {seen seen' : List Rid} {out : List Record} (hconsistent : Consistent s)
    (hexact : GivesExact load s.contents) (hascends : Ascends order load s)
    (h : Draws order load s seen out t seen') : out.Pairwise (Precedes order load) := by
  induction h with
  | nil s seen => exact .nil
  | @cons s next last seen lastSeen after r out hpull hrest ih =>
      have hspec := pull_spec hload order hconsistent ⟨seen, []⟩
      rw [hpull] at hspec
      obtain ⟨htransfer, hnext, -, -⟩ := hspec
      obtain ⟨hnextAscends, hprecedes⟩ := pull_ascends hload hexactLoad hconsistent hexact hascends
        hpull
      obtain ⟨hlater, -⟩ := draw_transfer hload hnext hrest
      -- what is drawn later was left in the stream by this pull
      refine List.pairwise_cons.mpr ⟨fun later hmem => ?_, ?_⟩
      · exact hprecedes r rfl later (hlater.gives (.inl hmem))
      · exact ih hnext (fun r hr => hexact r (htransfer.gives (.inr hr))) hnextAscends

end Stream

end RecordQuery
