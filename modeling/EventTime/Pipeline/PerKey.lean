import EventTime.Pipeline.Grouping
import EventTime.Pipeline.CombineTree

/-!
# Combining by key

A combine reduces the values of each key and window. Where the windowing strategy allows it the
values are combined before they are grouped; otherwise they are grouped into panes, and each pane
is reduced.
-/

namespace EventTime

variable {k v o : ElemType} {α : Type}

namespace Collection

/-- Combine before grouping, in one node. -/
def combineLifted [DecidableEq k.Elem] (c : Collection (.pair k v))
    (f : KeyedCombineFn k.Elem v.Elem α o.Elem) (width : Option Nat) :
    Build (Collection (.pair k o)) :=
  c.append <| .whole fun parts => do
    let bundles ← parts.mapM (·.rowsFor (.pair k v) "combine_per_key local")
    return ⟨.pair k o, combineBundles f width bundles⟩

/-- The coder by which the accumulators of a combine function travel, for inputs with a coder. -/
def accumulatorCoder (f : KeyedCombineFn k.Elem v.Elem α o.Elem)
    (inputCoder : Coder v.Elem := v.coder) : Build (Coder α) := do
  let p ← get
  f.accumulatorCoder p.registry inputCoder

/-- Combine by key: before grouping where that is sound, after grouping otherwise. The accumulators
must have a coder in either case. -/
def combineByKey [DecidableEq k.Elem] (c : Collection (.pair k v))
    (f : KeyedCombineFn k.Elem v.Elem α o.Elem) (width : Option Nat)
    (mode : InputWatermark := .elementTime) (inputCoder : Coder v.Elem := v.coder) :
    Build (Collection (.pair k o)) := do
  let _ ← accumulatorCoder (k := k) (v := v) (o := o) f inputCoder
  if c.strategy.allowsLifting then c.combineLifted f width
  else do
    let grouped ← c.groupByKey mode
    grouped.combineGrouped f

end Collection

end EventTime
