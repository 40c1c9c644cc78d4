import RecordQuery.Plan.Planner
import RecordQuery.Proofs.Marks
import RecordQuery.Proofs.Reachable

/-!
# `RecordQuery.Proofs.Fingerprints`: what the bytes behind a fingerprint tell

The bytes of an explanation, `ExplainNode.encode`, are its names and texts with nothing between
them; only the number of inputs stands in a field of its own. So they tell the explanation if it is
known where every text ends. An operation of a given name has its properties in a fixed order, some
of them only at times, and behind a text stands the name of one of the next ones. An explanation is
clear if no text holds such a name; then the names are marks. A text that holds one reads like a
shorter text with another property behind it.

`ExplainNode.propKinds` is the table of the properties of each operation, and `ExplainNode.Fills`
says that properties follow it. `ExplainNode.Readable` is what the table has to satisfy so that
properties can be told apart: a finite check, decided for each operation. `ExplainNode.isClear` is
what the texts have to satisfy, and can be computed for an explanation too. `ExplainNode.Formed`
says which trees explain sources; every plan has such a tree (`formed_source`, `fills_plan`), so the
result needs no other hypothesis than clearness.

The fingerprint is a digest of these bytes, and whether different bytes may have the same digest is
no matter of this module.

The theorems:

* `ExplainNode.Fills.inj`: properties in their order are read back from their bytes.
* `ExplainNode.Formed.encode_inj`: the explanations of sources are read back one after the other.
* `Plan.explain_eq_of_encode_eq`: plans with clear explanations and the same bytes have the same
  explanation.
* `Plan.encode_eq_of_limitName`: two plans with different explanations and the same bytes.
-/

set_option autoImplicit false

namespace RecordQuery

namespace ExplainNode

/-! ## Clear explanations

Names and texts are written one after the other with nothing between them. They can be told apart
where no text has a name in it that may stand behind it, which is what `isClear` tests. -/

/-- A property that operations of one name can have: its `name`, and whether it is `always`
there. -/
structure PropKind where
  /-- The name of the property. -/
  name : String
  /-- Whether each of the operations has it. -/
  always : Bool
  /-- Whether it shows constants of the query. -/
  redactable : Bool

/-- The properties of the operations of a name, in their order. A name that is not listed has none,
as `explain` gives none to it. -/
def propKinds : String → List PropKind
  | "Select" =>
      [⟨"target", true, false⟩, ⟨"filter", false, true⟩, ⟨"order_by", false, false⟩,
        ⟨"limit", false, false⟩, ⟨"skip", false, false⟩, ⟨"fullySortedByIndex", true, false⟩,
        ⟨"indexIsUsedInOrderBy", true, false⟩, ⟨"rangeQueryConvertedInBetween", false, false⟩,
        ⟨"parallel", false, false⟩]
  | "RecordList" => [⟨"count", true, false⟩]
  | "ClusterScan" =>
      [⟨"clusters", true, false⟩, ⟨"direction", true, false⟩, ⟨"range", false, true⟩]
  | "IndexUnion" => [⟨"branches", true, false⟩]
  | "IndexLookup" =>
      [⟨"index", true, false⟩, ⟨"kind", true, false⟩, ⟨"query", true, true⟩,
        ⟨"compositeIndexUsed", true, false⟩, ⟨"sorted", false, false⟩]
  | "SortedIndexScan" => [⟨"index", true, false⟩, ⟨"direction", true, false⟩]
  | "IndexTarget" => [⟨"index", true, false⟩, ⟨"query", false, true⟩, ⟨"direction", true, false⟩]
  | "CountShortcut" => [⟨"clusters", true, false⟩, ⟨"alias", true, false⟩]
  | _ => []

/-- The names one of which stands first among properties of the given kinds: those up to the first
one that is `always` there. -/
def firstNames : List PropKind → List String
  | [] => []
  | kind :: kinds => kind.name :: if kind.always then [] else firstNames kinds

/-- The names one of which stands behind the text of the property `name`. If all kinds behind it are
optional the text may also be the last one. -/
def nextNames (name : String) : List PropKind → List String
  | [] => []
  | kind :: kinds => if kind.name = name then firstNames kinds else nextNames name kinds

/-- Whether no text of the properties holds one of its `nextNames`, the names of the properties that
may stand behind it. -/
def propsClear (kinds : List PropKind) (props : List ExplainProp) : Bool :=
  props.all fun prop => (nextNames prop.name kinds).all fun name =>
    !decide (textBytes name <:+: textBytes prop.value)

mutual

/-- Whether no text of the tree holds the name of a property that may stand behind it. The numbers
of inputs are below `2 ^ 60`, as those of any list in memory are. -/
def isClear : ExplainNode → Bool
  | node op props inputs =>
      propsClear (propKinds op) props && decide (inputs.length < 2 ^ 60) && allClear inputs

/-- Whether all of some trees are clear (`isClear`). -/
def allClear : List ExplainNode → Bool
  | [] => true
  | n :: ns => isClear n && allClear ns

end

/-- Trees that are `allClear` are each clear. -/
theorem isClear_of_mem {n : ExplainNode} {ns : List ExplainNode} (h : allClear ns = true)
    (hn : n ∈ ns) : n.isClear = true := by
  induction ns with
  | nil => cases hn
  | cons first rest ih =>
      rw [allClear, Bool.and_eq_true] at h
      rcases List.mem_cons.mp hn with rfl | hn
      · exact h.1
      · exact ih h.2 hn

/-! ## Properties in their order

Which properties an operation has depends on the plan, their order does not. `Fills` allows for
properties that are left out, and `Readable` kinds can be told apart all the same. -/

/-- The bytes of some properties, name and text of each with nothing between them, as `encode`
writes them. -/
def propBytes (props : List ExplainProp) : List UInt8 :=
  props.flatMap fun p => textBytes p.name ++ textBytes p.value

@[simp] theorem propBytes_nil : propBytes [] = [] := rfl

@[simp] theorem propBytes_cons (prop : ExplainProp) (props : List ExplainProp) :
    propBytes (prop :: props) = textBytes prop.name ++ (textBytes prop.value ++ propBytes props) :=
  by simp [propBytes]

/-- Properties of the given kinds, in their order. A text that may be the last one does not hold the
mark behind it, `close`. -/
inductive Fills (close : List UInt8) : List PropKind → List ExplainProp → Prop
  /-- No kind is left. -/
  | nil : Fills close [] []
  /-- There is no property of the next kind. -/
  | skip {kind : PropKind} {kinds : List PropKind} {props : List ExplainProp}
      (hkind : kind.always = false) (rest : Fills close kinds props) :
      Fills close (kind :: kinds) props
  /-- There is a property of the next kind. -/
  | fill {kind : PropKind} {kinds : List PropKind} {value : String} {props : List ExplainProp}
      (hclose : (∀ k ∈ kinds, k.always = false) → ¬ close <:+: textBytes value)
      (rest : Fills close kinds props) :
      Fills close (kind :: kinds) (⟨kind.name, value, kind.redactable⟩ :: props)

/-- The marks one of which stands first in the bytes of properties of the given kinds with the mark
`close` behind them. -/
def marksOf (close : List UInt8) : List PropKind → List (List UInt8)
  | [] => [close]
  | kind :: kinds => textBytes kind.name :: if kind.always then [] else marksOf close kinds

/-- Kinds whose properties can be told apart. All of it is decided by computation for the kinds of
`propKinds`. -/
structure Readable (close : List UInt8) (kinds : List PropKind) : Prop where
  /-- No two kinds have the same name. -/
  names : (kinds.map PropKind.name).Nodup
  /-- Where a property starts, no mark starts with another one. -/
  starts : ∀ rest ∈ kinds.tails, (marksOf close rest).Pairwise fun m m' => ¬ (m <+: m' ∨ m' <+: m)
  /-- Where a text ends, the marks do not overlap. -/
  ends : ∀ rest ∈ kinds.tail.tails, Separate (marksOf close rest)

instance (close : List UInt8) (kinds : List PropKind) : Decidable (Readable close kinds) :=
  decidable_of_iff ((kinds.map PropKind.name).Nodup ∧
      (∀ rest ∈ kinds.tails,
        (marksOf close rest).Pairwise fun m m' => ¬ (m <+: m' ∨ m' <+: m)) ∧
      ∀ rest ∈ kinds.tail.tails, Separate (marksOf close rest))
    ⟨fun h => ⟨h.1, h.2.1, h.2.2⟩, fun h => ⟨h.names, h.starts, h.ends⟩⟩

section

variable {close r r' : List UInt8} {kind : PropKind} {kinds : List PropKind} {prop : ExplainProp}
  {props props' : List ExplainProp} {value : String}

/-- The kinds behind the first one are `Readable` if all of them are. -/
theorem Readable.tail (h : Readable close (kind :: kinds)) : Readable close kinds where
  names := (List.nodup_cons.mp h.names).2
  starts rest hrest := h.starts rest (by
    rw [List.tails_cons]
    exact List.mem_cons_of_mem _ hrest)
  ends rest hrest := h.ends rest ((List.mem_tails _ _).mpr
    (((List.mem_tails _ _).mp hrest).trans (List.tail_suffix kinds)))

/-- One of the `marksOf` some kinds is a name that may come first, or `close` if no name has to. -/
theorem mem_marksOf {mark : List UInt8} (h : mark ∈ marksOf close kinds) :
    (∃ name ∈ firstNames kinds, mark = textBytes name) ∨
      ((∀ k ∈ kinds, k.always = false) ∧ mark = close) := by
  induction kinds with
  | nil => exact .inr ⟨by simp, by simpa [marksOf] using h⟩
  | cons kind kinds ih =>
      rw [marksOf, List.mem_cons] at h
      rcases h with rfl | h
      · exact .inl ⟨kind.name, by simp [firstNames], rfl⟩
      · cases halways : kind.always with
        | true => simp [halways] at h
        | false =>
            rw [halways] at h
            rcases ih h with ⟨name, hname, rfl⟩ | ⟨hall, rfl⟩
            · exact .inl ⟨name, by simp [firstNames, halways, hname], rfl⟩
            · exact .inr ⟨by simpa [halways] using hall, rfl⟩

/-- Properties that are `propsClear` are so without the first one. -/
theorem propsClear_tail (h : propsClear kinds (prop :: props) = true) :
    propsClear kinds props = true := by
  rw [propsClear, List.all_cons, Bool.and_eq_true] at h
  exact h.2

/-- Properties that fill `kinds` have names of these kinds. -/
theorem Fills.name_mem (h : Fills close kinds props) :
    ∀ p ∈ props, p.name ∈ kinds.map PropKind.name := by
  induction h with
  | nil => simp
  | skip _ _ ih => exact fun p hp => List.mem_cons_of_mem _ (ih p hp)
  | fill _ _ ih =>
      intro p hp
      rcases List.mem_cons.mp hp with rfl | hp
      · simp
      · exact List.mem_cons_of_mem _ (ih p hp)

/-- What may stand behind a property does not depend on the kinds before it, so clear properties
stay clear when a kind is passed over that has another name (`hkind`). -/
theorem Fills.propsClear_tail (h : Fills close kinds props) (hkind : kind.name ∉ kinds.map (·.name))
    (hclear : propsClear (kind :: kinds) props = true) : propsClear kinds props = true := by
  refine List.all_eq_true.mpr fun p hp => ?_
  have hne : kind.name ≠ p.name := fun heq => hkind (heq ▸ h.name_mem p hp)
  simpa only [nextNames, if_neg hne] using List.all_eq_true.mp hclear p hp

/-- The text of a property that is there holds no mark that may stand behind it: no next name by
`hclear`, nor the mark at the end by `hclose`. -/
theorem lacks_marks (hclose : (∀ k ∈ kinds, k.always = false) → ¬ close <:+: textBytes value)
    (hclear : propsClear (kind :: kinds) (⟨kind.name, value, kind.redactable⟩ :: props) = true) :
    ∀ mark ∈ marksOf close kinds, ¬ mark <:+: textBytes value := by
  intro mark hmark
  rcases mem_marksOf hmark with ⟨name, hname, rfl⟩ | ⟨hall, rfl⟩
  · have hfirst := List.all_eq_true.mp hclear _ List.mem_cons_self
    simp only [nextNames, if_true] at hfirst
    simpa using List.all_eq_true.mp hfirst name hname
  · exact hclose hall

/-- Properties with a mark behind them start with one of the marks, `marksOf`. -/
theorem Fills.starts (h : Fills close kinds props) (r : List UInt8) :
    ∃ mark ∈ marksOf close kinds, ∃ after, propBytes props ++ (close ++ r) = mark ++ after := by
  induction h with
  | nil => exact ⟨close, by simp [marksOf], r, rfl⟩
  | @skip kind kinds props hkind _ ih =>
      obtain ⟨mark, hmark, after, heq⟩ := ih
      exact ⟨mark, by simp [marksOf, hkind, hmark], after, heq⟩
  | @fill kind kinds value props _ _ _ =>
      exact ⟨textBytes kind.name, by simp [marksOf],
        textBytes value ++ propBytes props ++ (close ++ r), by simp⟩

/-- Where the next property may be left out, what stands there instead does not start with its name,
as the kinds are `Readable`. So the bytes tell whether it is there. -/
theorem Fills.not_starts (hread : Readable close (kind :: kinds)) (hkind : kind.always = false)
    (h : Fills close kinds props) :
    propBytes props ++ (close ++ r) ≠ textBytes kind.name ++ r' := by
  intro heq
  obtain ⟨mark, hmark, after, hstart⟩ := h.starts r
  have hapart := hread.starts (kind :: kinds) (by simp)
  simp only [marksOf, hkind, Bool.false_eq_true, if_false, List.pairwise_cons] at hapart
  have hsame : textBytes kind.name ++ r' = mark ++ after := heq.symm.trans hstart
  exact hapart.1 mark hmark (List.prefix_or_prefix_of_prefix
    (List.prefix_append _ r') (hsame ▸ List.prefix_append mark after))

/-- Clear properties in their order are read back from their bytes and the mark behind them. The
induction is on `Fills` of the first list; each kind is either there in both lists or in neither. -/
theorem Fills.inj (hread : Readable close kinds) (h : Fills close kinds props)
    (h' : Fills close kinds props') (hclear : propsClear kinds props = true)
    (hclear' : propsClear kinds props' = true)
    (heq : propBytes props ++ (close ++ r) = propBytes props' ++ (close ++ r')) :
    props = props' ∧ r = r' := by
  induction h generalizing props' with
  | nil =>
      cases h'
      exact ⟨rfl, List.append_cancel_left (List.append_cancel_left heq)⟩
  -- no side can leave out a property that the other has: the other starts with its name
  | @skip kind kinds props hkind rest ih =>
      have hfresh := (List.nodup_cons.mp hread.names).1
      cases h' with
      | skip _ rest' =>
          exact ih hread.tail rest' (rest.propsClear_tail hfresh hclear)
            (rest'.propsClear_tail hfresh hclear') heq
      | fill _ _ =>
          rw [propBytes_cons, List.append_assoc] at heq
          exact absurd heq (rest.not_starts hread hkind)
  | @fill kind kinds value props hclose rest ih =>
      have hfresh := (List.nodup_cons.mp hread.names).1
      cases h' with
      | skip hkind rest' =>
          rw [propBytes_cons, List.append_assoc] at heq
          exact absurd heq.symm (rest'.not_starts hread hkind)
      | @fill _ _ value' props' hclose' rest' =>
          obtain ⟨mark, hmark, after, hstart⟩ := rest.starts r
          obtain ⟨mark', hmark', after', hstart'⟩ := rest'.starts r'
          simp only [propBytes_cons, List.append_assoc] at heq
          have hbytes := List.append_cancel_left heq
          rw [hstart, hstart'] at hbytes
          -- clear texts hold no mark, so both end where the first mark starts
          obtain ⟨hvalue, hrest⟩ := (hread.ends kinds (by simp)).cut hmark hmark'
            (lacks_marks hclose hclear) (lacks_marks hclose' hclear') hbytes
          rw [← hstart, ← hstart'] at hrest
          obtain ⟨hprops, hr⟩ := ih hread.tail rest'
            (rest.propsClear_tail hfresh (ExplainNode.propsClear_tail hclear))
            (rest'.propsClear_tail hfresh (ExplainNode.propsClear_tail hclear')) hrest
          exact ⟨by rw [textBytes_inj hvalue, hprops], hr⟩

end

/-! ## Operations one after the other

The bytes of a tree are its name, its properties, and its inputs with their number. A tree is read
back from the front, by induction on its form. -/

/-- The names of the operations that read from nothing. -/
def leafOps : List String :=
  ["RecordList", "ClusterScan", "IndexLookup", "SortedIndexScan", "IndexTarget"]

/-- The names of the operations without properties, that read from any number of others. -/
def listOps : List String := ["PolymorphicMerge", "IndexBranch"]

/-- The names of the operations that read records: those of `leafOps` and `listOps` and the union of
lookups. -/
def readOps : List String := "IndexUnion" :: leafOps ++ listOps

/-- The names of the operations that rows come from: `readOps` and the count. -/
def sourceOps : List String := "CountShortcut" :: readOps

/-- The explanations of sources and of their parts. The three constructors are the three ways in
which the end of the properties is told: `leaf` by a zero byte, the others by the number of
inputs. -/
inductive Formed : ExplainNode → Prop
  /-- An operation that reads from nothing. Behind its texts stands a zero byte. -/
  | leaf {op : String} {props : List ExplainProp} (hop : op ∈ leafOps)
      (hprops : Fills [0] (propKinds op) props) : Formed (.node op props [])
  /-- An operation without properties. -/
  | list {op : String} {inputs : List ExplainNode} (hop : op ∈ listOps)
      (hinputs : ∀ n ∈ inputs, Formed n) : Formed (.node op [] inputs)
  /-- The union of some branches. -/
  | union {inputs : List ExplainNode} (hops : ∀ n ∈ inputs, n.op = "IndexBranch")
      (hinputs : ∀ n ∈ inputs, Formed n) :
      Formed (.node "IndexUnion" [.plain "branches" (toString inputs.length)] inputs)

/-- The properties of each operation among `leafOps` are `Readable` before a zero byte. -/
theorem readable_leafOps : ∀ op ∈ leafOps, Readable [0] (propKinds op) := by decide +kernel

/-- The properties of a plan are `Readable` before the byte 1, the number of its inputs. -/
theorem readable_select : Readable [1] (propKinds "Select") := by decide +kernel

/-- No name among `sourceOps` starts with another one, so the name of an operation can be read
back. -/
theorem prefix_sourceOps : ∀ op ∈ sourceOps, ∀ op' ∈ sourceOps,
    textBytes op <+: textBytes op' → op = op' := by decide +kernel

/-- The name of an operation among `sourceOps` is read back. -/
theorem op_eq_of_append_eq {op op' : String} (hop : op ∈ sourceOps) (hop' : op' ∈ sourceOps)
    {r r' : List UInt8} (heq : textBytes op ++ r = textBytes op' ++ r') : op = op' := by
  rcases List.prefix_or_prefix_of_prefix (List.prefix_append (textBytes op) r)
    (heq ▸ List.prefix_append (textBytes op') r') with h | h
  · exact prefix_sourceOps op hop op' hop' h
  · exact (prefix_sourceOps op' hop' op hop h).symm

/-- The bytes of a tree: its name, its `propBytes`, the number of its inputs, and its inputs. -/
theorem encode_node (op : String) (props : List ExplainProp) (inputs : List ExplainNode) :
    (node op props inputs).encode =
      textBytes op ++ (propBytes props ++ (countBytes inputs.length ++ encodeAll inputs)) := by
  simp [encode, propBytes]

/-- A clear tree has clear properties, fewer than `2 ^ 60` inputs, and clear inputs. -/
theorem isClear_node {op : String} {props : List ExplainProp} {inputs : List ExplainNode} :
    (node op props inputs).isClear = true ↔
      propsClear (propKinds op) props = true ∧ inputs.length < 2 ^ 60 ∧ allClear inputs = true := by
  rw [isClear, Bool.and_eq_true, Bool.and_eq_true, decide_eq_true_eq, and_assoc]

/-- Trees of a known number are read back one after the other, if each of them is, `hread`. -/
theorem encodeAll_inj {ns ns' : List ExplainNode} {r r' : List UInt8}
    (hlength : ns.length = ns'.length)
    (hread : ∀ n ∈ ns, ∀ n' ∈ ns', ∀ r r', n.encode ++ r = n'.encode ++ r' → n = n' ∧ r = r')
    (heq : encodeAll ns ++ r = encodeAll ns' ++ r') : ns = ns' ∧ r = r' := by
  induction ns generalizing ns' with
  | nil =>
      obtain rfl : ns' = [] := List.length_eq_zero_iff.mp hlength.symm
      exact ⟨rfl, heq⟩
  | cons n ns ih =>
      cases ns' with
      | nil => simp at hlength
      | cons n' ns' =>
          simp only [encodeAll, List.append_assoc] at heq
          obtain ⟨rfl, hrest⟩ :=
            hread n List.mem_cons_self n' List.mem_cons_self _ _ heq
          obtain ⟨rfl, hr⟩ := ih (Nat.succ.inj hlength)
            (fun m hm m' hm' => hread m (List.mem_cons_of_mem _ hm) m' (List.mem_cons_of_mem _ hm'))
            hrest
          exact ⟨rfl, hr⟩

/-- Branches start with letters, which is what `counted_inj` asks for behind the number of them. -/
theorem letters_of_branches {inputs : List ExplainNode} (hops : ∀ n ∈ inputs, n.op = "IndexBranch")
    (r : List UInt8) (hsome : inputs.length ≠ 0) :
    ∃ letters, letters <+: encodeAll inputs ++ r ∧ 8 ≤ letters.length ∧
      ∀ b ∈ letters, 48 ≤ b.toNat := by
  cases inputs with
  | nil => exact absurd rfl hsome
  | cons n ns =>
      obtain ⟨op, props, inputs⟩ := n
      obtain rfl : op = "IndexBranch" := hops _ List.mem_cons_self
      refine ⟨textBytes "IndexBranch", ?_, by decide +kernel, by decide +kernel⟩
      rw [encodeAll, encode_node]
      simp only [List.append_assoc]
      exact List.prefix_append _ _

/-- A `Formed` tree has one of the names in `readOps`. -/
theorem Formed.op_mem {n : ExplainNode} (h : n.Formed) : n.op ∈ readOps := by
  cases h with
  | leaf hop _ => exact List.mem_cons_of_mem _ (List.mem_append_left _ hop)
  | list hop _ => exact List.mem_cons_of_mem _ (List.mem_append_right _ hop)
  | union _ _ => exact List.mem_cons_self

/-- Operations of different forms have different names, so the name tells which constructor of
`Formed` it is. -/
theorem op_forms : (∀ op ∈ leafOps, op ∉ listOps ∧ op ≠ "IndexUnion") ∧
    ∀ op ∈ listOps, op ≠ "IndexUnion" := by decide

/-- Where two operations that read records have the same bytes, they have the same name, and the
same bytes stand behind it. It is the first step for each constructor of `Formed`. -/
theorem Formed.behind_op {op op' : String} {props props' : List ExplainProp}
    {inputs inputs' : List ExplainNode} {r r' : List UInt8} (h : (node op props inputs).Formed)
    (h' : (node op' props' inputs').Formed)
    (heq : (node op props inputs).encode ++ r = (node op' props' inputs').encode ++ r') :
    op = op' ∧ propBytes props ++ (countBytes inputs.length ++ (encodeAll inputs ++ r)) =
      propBytes props' ++ (countBytes inputs'.length ++ (encodeAll inputs' ++ r')) := by
  simp only [encode_node, List.append_assoc] at heq
  obtain rfl : op = op' := op_eq_of_append_eq (List.mem_cons_of_mem _ h.op_mem)
    (List.mem_cons_of_mem _ h'.op_mem) heq
  exact ⟨rfl, List.append_cancel_left heq⟩

/-- The clear explanations of sources are read back from their bytes, whatever stands behind. The
induction is on `Formed`. -/
theorem Formed.encode_inj {n n' : ExplainNode} {r r' : List UInt8} (h : n.Formed) (h' : n'.Formed)
    (hclear : n.isClear = true) (hclear' : n'.isClear = true)
    (heq : n.encode ++ r = n'.encode ++ r') : n = n' ∧ r = r' := by
  induction h generalizing n' r r' with
  | @leaf op props hop hprops =>
      obtain ⟨op', props', inputs'⟩ := n'
      -- the name of the operation is read first, and it tells the form
      obtain ⟨rfl, hbytes⟩ := (Formed.leaf hop hprops).behind_op h' heq
      cases h' with
      | leaf _ hprops' =>
          simp only [List.length_nil, countBytes_zero, List.append_assoc] at hbytes
          obtain ⟨rfl, hr⟩ := hprops.inj (readable_leafOps op hop) hprops'
            (isClear_node.mp hclear).1 (isClear_node.mp hclear').1 hbytes
          exact ⟨rfl, List.append_cancel_left hr⟩
      | list hlist _ => exact absurd hlist (op_forms.1 op hop).1
      | union _ _ => exact absurd rfl (op_forms.1 _ hop).2
  | @list op inputs hop hinputs ih =>
      obtain ⟨op', props', inputs'⟩ := n'
      obtain ⟨rfl, hbytes⟩ := (Formed.list hop hinputs).behind_op h' heq
      obtain ⟨-, hsize, hall⟩ := isClear_node.mp hclear
      obtain ⟨-, hsize', hall'⟩ := isClear_node.mp hclear'
      cases h' with
      | leaf hleaf _ => exact absurd hop (op_forms.1 op hleaf).1
      | list _ hinputs' =>
          simp only [propBytes_nil, List.nil_append] at hbytes
          obtain ⟨hcount, hrest⟩ := List.append_inj hbytes (by simp)
          have hlength := countBytes_inj (by omega) (by omega) hcount
          obtain ⟨rfl, hr⟩ := encodeAll_inj hlength (fun m hm m' hm' _ _ =>
            ih m hm (hinputs' m' hm') (isClear_of_mem hall hm) (isClear_of_mem hall' hm')) hrest
          exact ⟨rfl, hr⟩
      | union _ _ => exact absurd rfl (op_forms.2 _ hop)
  | @union inputs hops hinputs ih =>
      obtain ⟨op', props', inputs'⟩ := n'
      obtain ⟨rfl, hbytes⟩ := (Formed.union hops hinputs).behind_op h' heq
      obtain ⟨-, hsize, hall⟩ := isClear_node.mp hclear
      obtain ⟨-, hsize', hall'⟩ := isClear_node.mp hclear'
      cases h' with
      | leaf hleaf _ => exact absurd rfl (op_forms.1 _ hleaf).2
      | list hlist _ => exact absurd rfl (op_forms.2 _ hlist)
      | union hops' hinputs' =>
          simp only [propBytes_cons, propBytes_nil, ExplainProp.plain, List.append_assoc,
            List.nil_append] at hbytes
          -- a union writes how many branches it has twice: as a text, and as the number of its
          -- inputs
          obtain ⟨hlength, hrest⟩ := counted_inj hsize hsize' (letters_of_branches hops r)
            (letters_of_branches hops' r') (List.append_cancel_left hbytes)
          obtain ⟨rfl, hr⟩ := encodeAll_inj hlength (fun m hm m' hm' _ _ =>
            ih m hm (hinputs' m' hm') (isClear_of_mem hall hm) (isClear_of_mem hall' hm')) hrest
          exact ⟨rfl, hr⟩

/-! ## Explanations of sources

That the trees which the program makes are `Formed`, and so can be read back. -/

/-- The characters of a text are ASCII and above the first two. So `textBytes` has none of the bytes
that close properties, 0 and 1. -/
def IsPlain (s : String) : Prop := ∀ c ∈ s.toList, 2 ≤ c.toNat ∧ c.toNat < 128

instance (s : String) : Decidable (IsPlain s) := List.decidableBAll _ _

/-- A text that `IsPlain` holds no byte below two. -/
theorem IsPlain.lacks {s : String} (h : IsPlain s) {b : UInt8} (hb : b.toNat < 2) :
    ¬ [b] <:+: textBytes s := by
  intro hin
  have hmem : b ∈ textBytes s := hin.subset List.mem_cons_self
  obtain ⟨c, hc, hcode⟩ := mem_textBytes (fun c hc => (h c hc).2) hmem
  have := (h c hc).1
  omega

theorem isPlain_append {s t : String} (hs : IsPlain s) (ht : IsPlain t) : IsPlain (s ++ t) := by
  intro c hc
  rw [String.toList_append, List.mem_append] at hc
  exact hc.elim (hs c) (ht c)

theorem isPlain_natText (n : Nat) : IsPlain (toString n) := by
  intro c hc
  have := digitCode (isDigit_of_mem_natText hc)
  omega

theorem isPlain_boolText (b : Bool) : IsPlain (boolText b) := by
  cases b <;> decide

theorem isPlain_ascendingText (b : Bool) : IsPlain (ascendingText b) := by
  cases b <;> decide

theorem isPlain_ridText (rid : Option Rid) : IsPlain ((rid.map Rid.text).getD "") := by
  intro c hc
  cases rid with
  | none => simp at hc
  | some rid =>
      rcases Rid.mem_text hc with rfl | rfl | hdigit
      · decide
      · decide
      · have := digitCode hdigit
        omega

/-- A property that only some of the operations have: `found` is empty, or holds a property of the
next kind. -/
theorem Fills.optional {close : List UInt8} {kind : PropKind} {kinds : List PropKind}
    {found props : List ExplainProp} (hkind : kind.always = false)
    (hfound : found = [] ∨ ∃ value, found = [⟨kind.name, value, kind.redactable⟩] ∧
      ((∀ k ∈ kinds, k.always = false) → ¬ close <:+: textBytes value))
    (rest : Fills close kinds props) : Fills close (kind :: kinds) (found ++ props) := by
  rcases hfound with rfl | ⟨value, rfl, hclose⟩
  · exact .skip hkind rest
  · exact .fill hclose rest

/-- A property that an operation has under some `condition`: it is left out, or there with its
value. -/
theorem ifThen_cases {condition : Bool} {name value : String} {redactable : Bool}
    {p : String → Prop} (hvalue : p value) :
    (if condition then [ExplainProp.mk name value redactable] else []) = [] ∨
      ∃ text, (if condition then [ExplainProp.mk name value redactable] else []) =
        [⟨name, text, redactable⟩] ∧ p text := by
  cases condition
  · exact .inl rfl
  · exact .inr ⟨value, rfl, hvalue⟩

/-- A property that only some of the operations have, behind all the others: there or not, it fills
its `kind`. -/
theorem Fills.optionalLast {close : List UInt8} {kind : PropKind} {found : List ExplainProp}
    (hkind : kind.always = false)
    (hfound : found = [] ∨ ∃ value, found = [⟨kind.name, value, kind.redactable⟩] ∧
      ¬ close <:+: textBytes value) : Fills close [kind] found := by
  rw [← List.append_nil found]
  refine .optional hkind ?_ .nil
  rcases hfound with h | ⟨value, h, hclose⟩
  · exact .inl h
  · exact .inr ⟨value, h, fun _ => hclose⟩

/-- The explanation of a scan is `Formed`, a `leaf`. -/
theorem formed_scan (scan : ScanPlan) : scan.explain.Formed := by
  refine .leaf (by decide) ?_
  simp only [propKinds]
  refine .fill (by simp) (.fill (fun _ => (isPlain_ascendingText _).lacks (by decide))
    (.optionalLast rfl ?_))
  split
  · exact .inl rfl
  · refine .inr ⟨_, rfl, ?_⟩
    exact (isPlain_append (isPlain_append (isPlain_ridText _) (by decide))
      (isPlain_ridText _)).lacks (by decide)

/-- The explanation of a candidate of an index is `Formed`. -/
theorem formed_candidate (candidate : Candidate) : candidate.explain.Formed := by
  refine .leaf (by decide) ?_
  simp only [propKinds]
  refine .fill (by simp) (.fill (by simp) (.fill (by simp)
    (.fill (fun _ => (isPlain_boolText _).lacks (by decide)) (.optionalLast rfl ?_))))
  split
  · exact .inr ⟨_, rfl, IsPlain.lacks (by decide) (by decide)⟩
  · exact .inl rfl

mutual

/-- The explanation of a source is `Formed`. The recursion is that of `Source.explain`. -/
theorem formed_source : ∀ source : Source, source.explain.Formed
  | .records rids =>
      .leaf (by decide) (.fill (fun _ => (isPlain_natText _).lacks (by decide)) .nil)
  | .scan plan => formed_scan plan
  | .union branches => by
      rw [Source.explain]
      have hlength : branches.length = (branches.map fun branch =>
          node "IndexBranch" [] (branch.map Candidate.explain)).length := by simp
      rw [hlength]
      -- the branches are operations of their own, each a list of lookups
      refine .union ?_ ?_
      · intro n hn
        obtain ⟨branch, -, rfl⟩ := List.mem_map.mp hn
        rfl
      · intro n hn
        obtain ⟨branch, -, rfl⟩ := List.mem_map.mp hn
        refine .list (by decide) fun n hn => ?_
        obtain ⟨candidate, -, rfl⟩ := List.mem_map.mp hn
        exact formed_candidate candidate
  | .sortedWalk index ascending =>
      .leaf (by decide) (.fill (by simp)
        (.fill (fun _ => (isPlain_ascendingText _).lacks (by decide)) .nil))
  | .fanOut parts => .list (by decide) (formed_sources parts)
  | .indexTarget index lookup keys ascending => by
      refine .leaf (by decide) ?_
      simp only [propKinds]
      refine .fill (by simp) (.optional rfl ?_
        (.fill (fun _ => (isPlain_ascendingText _).lacks (by decide)) .nil))
      cases lookup with
      | none => exact .inl rfl
      | some query => exact .inr ⟨_, rfl, by simp⟩

/-- The explanations of the parts of a fan-out are `Formed`. -/
theorem formed_sources : ∀ parts : List Source, ∀ n ∈ Source.explainAll parts, n.Formed
  | [] => by simp [Source.explainAll]
  | part :: parts => by
      intro n hn
      rcases List.mem_cons.mp hn with rfl | hn
      · exact formed_source part
      · exact formed_sources parts n hn

end

/-! ## Explanations of plans

A plan is explained by one operation more, with the source as its input, or by a count. -/

/-- The explanations of two counts are read back from their bytes. The alias `name` is the last
property, so it may hold any text. -/
theorem encode_count_inj {clusters clusters' : List ClusterId} {name name' : String}
    (heq : (PlanSource.count clusters name).explain.encode =
      (PlanSource.count clusters' name').explain.encode) :
    (PlanSource.count clusters name).explain = (PlanSource.count clusters' name').explain := by
  have hsep : Separate [textBytes "alias"] := by decide +kernel
  -- digits do not hold the name behind them
  have hdigits {n : Nat} : ∀ mark ∈ [textBytes "alias"], ¬ mark <:+: textBytes (toString n) := by
    intro mark hmark hin
    rw [List.mem_singleton.mp hmark] at hin
    have := (mem_textBytes_natText (hin.subset (show 97 ∈ textBytes "alias" by decide +kernel))).2
    simp at this
  simp only [PlanSource.explain, encode_node, propBytes_cons, propBytes_nil, ExplainProp.plain,
    List.append_assoc, List.nil_append] at heq
  have hbytes := List.append_cancel_left (List.append_cancel_left heq)
  obtain ⟨hcount, hrest⟩ := hsep.cut (by simp) (by simp) hdigits hdigits hbytes
  have halias := List.append_cancel_right (List.append_cancel_left hrest)
  rw [PlanSource.explain, PlanSource.explain, textBytes_inj hcount, textBytes_inj halias]

/-- What a plan does to get its rows is read back from the bytes of its explanation, if both
explanations are clear (`isClear`). -/
theorem encode_planSource_inj {source source' : PlanSource}
    (hclear : source.explain.isClear = true) (hclear' : source'.explain.isClear = true)
    (heq : source.explain.encode = source'.explain.encode) : source.explain = source'.explain := by
  -- no operation that reads records has the name of the one that counts
  have hcount (read : Source) (clusters : List ClusterId) (name : String) :
      read.explain.encode ≠ (PlanSource.count clusters name).explain.encode := by
    intro heq
    have hop := (formed_source read).op_mem
    rw [PlanSource.explain] at heq
    generalize read.explain = tree at hop heq
    obtain ⟨op, props, inputs⟩ := tree
    rw [encode_node, encode_node] at heq
    obtain rfl : op = "CountShortcut" := op_eq_of_append_eq
      (List.mem_cons_of_mem _ hop) List.mem_cons_self heq
    exact absurd (show "CountShortcut" ∈ readOps from hop) (by decide)
  cases source with
  | rows read =>
      cases source' with
      | rows read' =>
          exact ((formed_source read).encode_inj (formed_source read') hclear hclear'
            (congrArg (· ++ []) heq)).1
      | count clusters name => exact absurd heq (hcount read clusters name)
  | count clusters name =>
      cases source' with
      | rows read' => exact absurd heq.symm (hcount read' clusters name)
      | count clusters' name' => exact encode_count_inj heq

/-- The properties of a plan fill those of `propKinds "Select"`, in their order. -/
theorem fills_plan (plan : Plan) (query : SelectQuery) :
    Fills [1] (propKinds "Select") (plan.explain query).props := by
  simp only [Plan.explain, props, propKinds, List.append_assoc, List.cons_append, List.nil_append]
  have hlast := (isPlain_boolText plan.usedInOrderBy).lacks (b := 1) (by decide)
  have hpairs := (isPlain_natText plan.foldedPairs).lacks (b := 1) (by decide)
  have hparallel := IsPlain.lacks (s := "true") (b := 1) (by decide) (by decide)
  refine .fill (by simp) (.optional rfl ?_ (.optional rfl (ifThen_cases (by simp))
    (.optional rfl (ifThen_cases (by simp)) (.optional rfl (ifThen_cases (by simp))
      (.fill (by simp) (.fill (fun _ => hlast) (.optional rfl (ifThen_cases fun _ => hpairs)
        (.optionalLast rfl (ifThen_cases hparallel)))))))))
  cases plan.filter with
  | none => exact .inl rfl
  | some condition => exact .inr ⟨_, rfl, by simp⟩

end ExplainNode

open ExplainNode in
/-- Plans with clear explanations, `isClear`, and the same bytes, `encode`, have the same
explanation: the same operations with the same properties in the same order, that read from the same
others. So where the digests tell the bytes, the fingerprint tells the explanation. -/
theorem Plan.explain_eq_of_encode_eq (plan plan' : Plan) (query query' : SelectQuery)
    (hclear : (plan.explain query).isClear = true)
    (hclear' : (plan'.explain query').isClear = true)
    (heq : (plan.explain query).encode = (plan'.explain query').encode) :
    plan.explain query = plan'.explain query' := by
  have hnode (plan : Plan) (query : SelectQuery) : plan.explain query =
      .node "Select" (plan.explain query).props [plan.source.explain] := rfl
  have hfills := fills_plan plan query
  have hfills' := fills_plan plan' query'
  rw [hnode plan, hnode plan']
  rw [hnode, isClear_node] at hclear hclear'
  rw [hnode plan, hnode plan', encode_node, encode_node] at heq
  have hbytes := List.append_cancel_left heq
  simp only [List.length_singleton, countBytes_one, List.append_assoc] at hbytes
  obtain ⟨hprops, hrest⟩ := hfills.inj readable_select hfills' hclear.1 hclear'.1 hbytes
  have hencode := List.append_cancel_left hrest
  simp only [encodeAll, List.append_nil] at hencode
  -- nothing stands behind the source, so its bytes are all that is left
  have hsource := encode_planSource_inj (isClear_of_mem hclear.2.2 List.mem_cons_self)
    (isClear_of_mem hclear'.2.2 List.mem_cons_self) hencode
  rw [hprops, hsource]

namespace Plan

/-! ## Explanations in a store -/

/-- Class `A` with an index on its field `x`. -/
def indexedStore : Store := .ofChanges [
  .createClass "A" none 1 false,
  .createIndex "A.x" .notUnique ⟨"A", ["x"], false, .keys⟩]

/-- The records of the class in which `field` and `other` are equal, up to a limit. -/
def equalFields (field other : String) (limit : Int) : SelectQuery :=
  { SelectQuery.ofTarget (.ofClass "A" true) with
    filter := some (.compare ⟨.field ⟨field, []⟩, .equals, .field ⟨other, []⟩⟩)
    limit }

/-- The records of the class with one value of the indexed field, shown with the given `columns`. -/
def oneValue (columns : List Projection) : SelectQuery :=
  { SelectQuery.ofTarget (.ofClass "A" true) with
    filter := some (.compare ⟨.field ⟨"x", []⟩, .equals, .literal (.int 1)⟩)
    projections := columns }

/-- The tree that explains the plan of a query over `indexedStore`. -/
def treeOf (query : SelectQuery) : Option ExplainNode :=
  (indexedStore.plan .default query [] false).toOption.map fun plan => plan.explain query

/-- The plan behind a `treeOf`. -/
theorem exists_of_treeOf {query : SelectQuery} (h : (treeOf query).isSome = true) :
    ∃ plan, indexedStore.plan .default query [] false = .ok plan ∧
      treeOf query = some (plan.explain query) := by
  unfold treeOf at h ⊢
  cases hplan : indexedStore.plan .default query [] false with
  | error failure =>
      rw [hplan] at h
      cases h
  | ok plan => exact ⟨plan, rfl, rfl⟩

/-- Two queries over an index that differ in their columns have the same explanation, as `encode`
tells the same bytes. -/
theorem explain_eq_otherColumns :
    ∃ plan plan', indexedStore.plan .default (oneValue []) [] false = .ok plan ∧
      indexedStore.plan .default (oneValue [.ofField ⟨"x", []⟩ none]) [] false = .ok plan' ∧
      (plan.explain (oneValue [])).isClear = true ∧
      (plan'.explain (oneValue [.ofField ⟨"x", []⟩ none])).isClear = true ∧
      plan.explain (oneValue []) = plan'.explain (oneValue [.ofField ⟨"x", []⟩ none]) := by
  obtain ⟨plan, hplan, htree⟩ :=
    exists_of_treeOf (show (treeOf (oneValue [])).isSome = true by decide +kernel)
  obtain ⟨plan', hplan', htree'⟩ := exists_of_treeOf
    (show (treeOf (oneValue [.ofField ⟨"x", []⟩ none])).isSome = true by decide +kernel)
  have hclear : (treeOf (oneValue [])).map (·.isClear) = some true := by decide +kernel
  have hclear' : (treeOf (oneValue [.ofField ⟨"x", []⟩ none])).map (·.isClear) = some true := by
    decide +kernel
  have hbytes : (treeOf (oneValue [])).map (·.encode) =
      (treeOf (oneValue [.ofField ⟨"x", []⟩ none])).map (·.encode) := by decide +kernel
  rw [htree] at hclear hbytes
  rw [htree'] at hclear' hbytes
  have hclear := Option.some.inj hclear
  have hclear' := Option.some.inj hclear'
  exact ⟨plan, plan', hplan, hplan', hclear, hclear',
    explain_eq_of_encode_eq plan plan' _ _ hclear hclear' (Option.some.inj hbytes)⟩

/-- A limit behind the name of a field reads like a longer name: two plans with different
explanations and the same bytes. The text of the second filter holds the name "limit", so its
explanation is not `isClear`. -/
theorem encode_eq_of_limitName :
    ∃ plan plan', indexedStore.plan .default (equalFields "a" "y" 5) [] false = .ok plan ∧
      indexedStore.plan .default (equalFields "a" "ylimit5" (-1)) [] false = .ok plan' ∧
      (plan.explain (equalFields "a" "y" 5)).encode =
        (plan'.explain (equalFields "a" "ylimit5" (-1))).encode ∧
      plan.explain (equalFields "a" "y" 5) ≠ plan'.explain (equalFields "a" "ylimit5" (-1)) := by
  obtain ⟨plan, hplan, htree⟩ :=
    exists_of_treeOf (show (treeOf (equalFields "a" "y" 5)).isSome = true by decide +kernel)
  obtain ⟨plan', hplan', htree'⟩ := exists_of_treeOf
    (show (treeOf (equalFields "a" "ylimit5" (-1))).isSome = true by decide +kernel)
  have hbytes : (treeOf (equalFields "a" "y" 5)).map (·.encode) =
      (treeOf (equalFields "a" "ylimit5" (-1))).map (·.encode) := by decide +kernel
  have hlimit : (treeOf (equalFields "a" "y" 5)).map (·.prop? "limit") ≠
      (treeOf (equalFields "a" "ylimit5" (-1))).map (·.prop? "limit") := by decide +kernel
  rw [htree, htree'] at hbytes hlimit
  exact ⟨plan, plan', hplan, hplan', Option.some.inj hbytes, fun h => hlimit (by rw [h])⟩

end Plan

end RecordQuery
