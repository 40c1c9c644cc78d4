import RecordQuery.Options
import RecordQuery.Toml.Reader

/-!
# `RecordQuery.Toml.Settings`: settings from a document

The settings are values at the top of a TOML document. Settings that are missing keep their
defaults, and names that are no settings are passed over. The document is refused when it is
malformed or a setting has a value of the wrong kind.
-/

set_option autoImplicit false

namespace RecordQuery

namespace Toml

/-- A number of things. -/
def natural? : Item → Option Nat
  | .integer n => if 0 ≤ n then some n.toNat else none
  | _ => none

/-- A truth value. -/
def boolean? : Item → Option Bool
  | .boolean b => some b
  | _ => none

/-- Whether a value is an empty collection, which may stand behind the name of a choice. -/
def isEmptyCollection : Item → Bool
  | .array [] | .inlineTable [] | .table _ [] => true
  | _ => false

/-- A timeout strategy: its name, or a table with its name and nothing under it. -/
def strategy? : Item → Option TimeoutStrategy
  | .string name => TimeoutStrategy.ofText? name
  | .inlineTable [(name, item)] | .table _ [(name, item)] =>
      if isEmptyCollection item then TimeoutStrategy.ofText? name else none
  | _ => none

/-- A setting of the document, or its default; `none` when the value is of the wrong kind. -/
def setting {α : Type} (entries : Entries) (name : String) (read : Item → Option α)
    (default : α) : Option α :=
  match entries.get? name with
  | none => some default
  | some item => read item

end Toml

/-- The settings that a TOML text spells. -/
def Options.ofToml? (text : String) : Option Options := do
  let entries ← Toml.parse text
  let base := Options.default
  return {
    sortSlack := ← Toml.setting entries "partial_sort_slack" Toml.natural? base.sortSlack
    parallelMinRecords :=
      ← Toml.setting entries "parallel_min_records" Toml.natural? base.parallelMinRecords
    queueCapacity :=
      ← Toml.setting entries "parallel_queue_capacity" Toml.natural? base.queueCapacity
    defaultTimeoutMs :=
      ← Toml.setting entries "default_timeout_ms" (fun item => (Toml.natural? item).map some)
        base.defaultTimeoutMs
    timeoutStrategy :=
      ← Toml.setting entries "timeout_strategy" Toml.strategy? base.timeoutStrategy
    limitHintThreshold :=
      ← Toml.setting entries "tip_limit_threshold" Toml.natural? base.limitHintThreshold
    foldRanges := ← Toml.setting entries "between_rewrite" Toml.boolean? base.foldRanges }

end RecordQuery
