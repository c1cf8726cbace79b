import EventTime.Pipeline.Collection
import EventTime.Pipeline.Table
import EventTime.Pane.Grouper
import EventTime.Combine.Basic

/-!
# Grouping by key

The values of each key are grouped into panes as the windowing strategy says; a grouped collection
can be reduced list by list.
-/

namespace EventTime

variable {κ ν : Type} {k v o : ElemType} {α : Type}

/-- The envelopes of each key, with the key taken off their values. -/
def rowsByKey [DecidableEq κ] (rows : List (Envelope (κ × ν))) : Table κ (List (Envelope ν)) :=
  Table.gather (rows.map fun e => (e.value.1, e.withValue e.value.2))

/-- The panes of one key, each as an envelope. -/
def panesOfKey (s : Strategy) (mode : InputWatermark) (key : κ) (rows : List (Envelope ν)) :
    Except Fault (List (Envelope (κ × List ν))) :=
  match Grouper.run s mode rows with
  | .ok panes => .ok (panes.map fun p => .ofPane (key, p.values) p.window p.info)
  | .error e => .error (.during "group_by_key: trigger evaluation failed" e)

/-- The panes of all keys. -/
def groupRows [DecidableEq κ] (s : Strategy) (mode : InputWatermark)
    (rows : List (Envelope (κ × ν))) : Except Fault (List (Envelope (κ × List ν))) := do
  return (← (rowsByKey rows).mapM fun p => panesOfKey s mode p.1 p.2).flatten

namespace Collection

/-- Group values by key and window; each element of the result is one pane. -/
def groupByKey [DecidableEq k.Elem] (c : Collection (.pair k v))
    (mode : InputWatermark := .elementTime) : Build (Collection (.pair k (.list v))) :=
  c.append <| .whole fun parts => do
    let rows ← Partition.allRowsFor parts (.pair k v) "group_by_key"
    return ⟨.pair k (.list v), ← groupRows c.strategy mode rows⟩

/-- Reduce each list of grouped values with the combine function of its key. -/
def combineGrouped (c : Collection (.pair k (.list v)))
    (f : KeyedCombineFn k.Elem v.Elem α o.Elem) : Build (Collection (.pair k o)) :=
  c.map fun p => (p.1, f.apply p.1 p.2)

end Collection

end EventTime
