import EventTime.Pipeline.Global
import EventTime.Combine.Accumulating
import EventTime.Proofs.Attempt

/-!
# Combines that fail to build

Inserting a stage never fails, so a combine fails to build only at one of its checks: a default that
would be put out outside the global window, and the coder of the accumulators. A combine by key makes
its check before it inserts anything. A combine of a whole collection asks for the coder only once
its elements have been given a key, and the stage that does so stays in the pipeline.
-/

namespace EventTime

variable {σ ρ τ α : Type} {k v o t : ElemType}

namespace Attempt

/-- Never fails, in whatever state it is begun. -/
def Total (a : Attempt σ ρ) : Prop := ∀ s, ∃ r s', a.begin s = (.ok r, s')

theorem Total.bind {a : Attempt σ ρ} {f : ρ → Attempt σ τ} (h : a.Total)
    (hf : ∀ r, (f r).Total) : Attempt.Total (a >>= f) := by
  intro s
  obtain ⟨r, s', ha⟩ := h s
  obtain ⟨r', s'', hb⟩ := hf r s'
  exact ⟨r', s'', (begin_bind ha f).trans hb⟩

theorem Total.not_error {a : Attempt σ ρ} (h : a.Total) {s s' : σ} {e : Fault} :
    a.begin s ≠ (.error e, s') := by
  obtain ⟨r, s'', ha⟩ := h s
  rw [ha]
  nofun

/-- With nothing after it that may fail, an action is where a sequence fails. -/
theorem Total.error_first {a : Attempt σ ρ} {f : ρ → Attempt σ τ} (hf : ∀ r, (f r).Total)
    {s s' : σ} {e : Fault} (h : Attempt.begin (a >>= f) s = (.error e, s')) :
    a.begin s = (.error e, s') := by
  rcases ha : a.begin s with ⟨r | r, s''⟩
  · rw [begin_bind_error ha] at h
    obtain ⟨he, hs⟩ := Prod.mk.inj h
    rw [Except.error.inj he, hs]
  · rw [begin_bind ha] at h
    exact absurd h (hf r).not_error

end Attempt

namespace Collection

theorem total_append (c : Collection t) (node : Node Partition) :
    (c.append node : Build (Collection o)).Total := fun _ => ⟨_, _, rfl⟩

theorem total_union (cs : List (Collection t)) : (Collection.union cs).Total := fun _ => ⟨_, _, rfl⟩

theorem begin_accumulatorCoder (f : KeyedCombineFn k.Elem v.Elem α o.Elem)
    (inputCoder : Coder v.Elem) (p : Pipeline) :
    (accumulatorCoder (k := k) (v := v) (o := o) f inputCoder).begin p =
      (f.accumulatorCoder p.registry inputCoder, p) := by
  have hget : Attempt.begin (get : Build Pipeline) p = (.ok p, p) := rfl
  rw [accumulatorCoder, Attempt.begin_bind hget]
  cases f.accumulatorCoder p.registry inputCoder <;> rfl

theorem accumulatorCoder_error {f : KeyedCombineFn k.Elem v.Elem α o.Elem}
    {inputCoder : Coder v.Elem} {p p' : Pipeline} {e : Fault}
    (h : (accumulatorCoder (k := k) (v := v) (o := o) f inputCoder).begin p = (.error e, p')) :
    f.accumulatorCoder p.registry inputCoder = .error e ∧ p' = p := by
  rw [begin_accumulatorCoder] at h
  obtain ⟨hcoder, rfl⟩ := Prod.mk.inj h
  exact ⟨hcoder, rfl⟩

variable [DecidableEq k.Elem]

/-- A combine by key, once its coder is known. -/
theorem total_combine (c : Collection (.pair k v)) (f : KeyedCombineFn k.Elem v.Elem α o.Elem)
    (width : Option Nat) (mode : InputWatermark) :
    Attempt.Total (σ := Pipeline) (ρ := Collection (.pair k o))
      (if c.strategy.allowsLifting then c.combineLifted f width
        else do
          let grouped ← c.groupByKey mode
          grouped.combineGrouped f) := by
  split
  · exact total_append c _
  · exact (total_append c _).bind fun grouped => total_append grouped _

theorem total_combineByKey (c : Collection (.pair k v)) {f : KeyedCombineFn k.Elem v.Elem α o.Elem}
    {inputCoder : Coder v.Elem}
    (hcoder : ∀ registry, ∃ coder, f.accumulatorCoder registry inputCoder = .ok coder)
    (width : Option Nat) (mode : InputWatermark) :
    (c.combineByKey f width mode inputCoder).Total := by
  refine Attempt.Total.bind (fun p => ?_) fun _ => total_combine c f width mode
  obtain ⟨coder, h⟩ := hcoder p.registry
  exact ⟨coder, p, by rw [begin_accumulatorCoder, h]⟩

theorem combineByKey_error {c : Collection (.pair k v)}
    {f : KeyedCombineFn k.Elem v.Elem α o.Elem} {width : Option Nat} {mode : InputWatermark}
    {inputCoder : Coder v.Elem} {p p' : Pipeline} {e : Fault}
    (h : (c.combineByKey f width mode inputCoder).begin p = (.error e, p')) :
    f.accumulatorCoder p.registry inputCoder = .error e ∧ p' = p :=
  accumulatorCoder_error (Attempt.Total.error_first (fun _ => total_combine c f width mode) h)

/-- Both combines of the two-step way have a coder at hand for their accumulators. -/
theorem combineHotKeys_error {c : Collection (.pair k v)}
    {f : KeyedCombineFn k.Elem v.Elem α o.Elem} {fanout : k.Elem → UInt32} {width : Option Nat}
    {inputCoder : Coder v.Elem} {p p' : Pipeline} {e : Fault}
    (h : (c.combineHotKeys f fanout width inputCoder).begin p = (.error e, p')) :
    f.accumulatorCoder p.registry inputCoder = .error e ∧ p' = p := by
  refine accumulatorCoder_error (Attempt.Total.error_first (fun coder => ?_) h)
  refine (total_append c _).bind fun tagged => (total_append tagged _).bind fun hot => ?_
  refine (total_combineByKey _ (fun _ => ⟨_, rfl⟩) width _).bind fun partials => ?_
  refine (total_append partials _).bind fun hotBytes => (total_append tagged _).bind fun cold => ?_
  refine (total_union _).bind fun joined => ?_
  exact (total_combineByKey joined (fun _ => ⟨_, rfl⟩) width _).bind fun results =>
    total_append results _

end Collection

theorem PerKey.apply_error [DecidableEq k.Elem] {q : PerKey k v o α} {p p' : Pipeline} {e : Fault}
    (h : q.apply.begin p = (.error e, p')) :
    q.fn.accumulatorCoder p.registry q.inputCoder = .error e ∧ p' = p := by
  unfold PerKey.apply at h
  split at h
  · exact Collection.combineHotKeys_error h
  · exact Collection.combineByKey_error h

namespace Globally

variable {g : Globally t o α} {p p' : Pipeline} {e : Fault}

/-- The default would be put out where there is not just the global window. -/
def RefusesDefault (g : Globally t o α) : Prop :=
  (g.keepDefault && !g.input.strategy.windowFn.isGlobal) = true

/-- No coder is found for the accumulators, and the pipeline has grown by a stage on the input. -/
def LeavesStage (g : Globally t o α) (p p' : Pipeline) (e : Fault) : Prop :=
  g.fn.accumulatorCoder p.registry t.coder = .error e ∧
    ∃ stage, p' = { p with graph := p.graph.add stage [g.input.node] }

theorem combineUnderOneKey_error (h : g.combineUnderOneKey.begin p = (.error e, p')) :
    g.LeavesStage p p' e := by
  obtain ⟨stage, keyed, hkeyed⟩ : ∃ stage keyed,
      (g.input.map (u := .pair .unit t) fun a => ((), a)).begin p =
        (.ok keyed, { p with graph := p.graph.add stage [g.input.node] }) := ⟨_, _, rfl⟩
  rw [combineUnderOneKey, Attempt.begin_bind hkeyed] at h
  obtain ⟨hcoder, rfl⟩ := PerKey.apply_error <|
    Attempt.Total.error_first (fun combined => Collection.total_append combined _) h
  exact ⟨hcoder, stage, rfl⟩

theorem asSingletonView_error (h : g.asSingletonView.begin p = (.error e, p')) :
    g.LeavesStage p p' e :=
  combineUnderOneKey_error (Attempt.Total.error_first (fun _ _ => ⟨_, _, rfl⟩) h)

theorem apply_error (h : g.apply.begin p = (.error e, p')) :
    g.RefusesDefault ∧ p' = p ∨ ¬ g.RefusesDefault ∧ g.LeavesStage p p' e := by
  by_cases hrefuses : g.RefusesDefault
  · have hcheck : g.apply.begin p = (.error .defaultOutsideGlobalWindows, p) := by
      rw [RefusesDefault] at hrefuses
      rw [apply, if_pos hrefuses]
      rfl
    obtain ⟨-, rfl⟩ := Prod.mk.inj (hcheck.symm.trans h)
    exact .inl ⟨hrefuses, rfl⟩
  · refine .inr ⟨hrefuses, ?_⟩
    rw [RefusesDefault] at hrefuses
    rw [apply, if_neg hrefuses] at h
    refine combineUnderOneKey_error (Attempt.Total.error_first (fun combined => ?_) h)
    split
    · exact Collection.total_append combined _
    · exact fun _ => ⟨_, _, rfl⟩

end Globally

/-- A combine by key that fails to build leaves the pipeline as it was, and so does a combine of a
whole collection that is refused its default. One whose accumulators have no coder leaves a stage. -/
theorem failed_combine_pipeline {p p' : Pipeline} {e : Fault} :
    (∀ (k v o : ElemType) (α : Type) [DecidableEq k.Elem] (q : PerKey k v o α),
      q.apply.begin p = (.error e, p') → p' = p) ∧
    ∀ (t o : ElemType) (α : Type) (g : Globally t o α),
      (g.apply.begin p = (.error e, p') →
        g.RefusesDefault ∧ p' = p ∨ ¬ g.RefusesDefault ∧ g.LeavesStage p p' e) ∧
      (g.asSingletonView.begin p = (.error e, p') → g.LeavesStage p p' e) :=
  ⟨fun _ _ _ _ _ _ h => (PerKey.apply_error h).2,
    fun _ _ _ _ => ⟨Globally.apply_error, Globally.asSingletonView_error⟩⟩

/-- Texts, and a registry that knows no digests. -/
def someTexts : Pipeline := ((Collection.ofValues (t := .text) ["a", "b"]).begin {}).2

def digestOfTexts (strategy : Strategy) : Globally .text .text Digest :=
  ⟨⟨0, strategy⟩, .digest, 0, true⟩

def digestByLetter : PerKey .text .text .text Digest :=
  { input := ⟨0, {}⟩, fn := CombineFn.digest.lift, fanout := some fun _ => 3 }

theorem failed_combine_pipeline_of_digests :
    digestByLetter.apply.begin someTexts = (.error .cannotProvideCoder, someTexts) ∧
    (digestOfTexts { windowFn := .fixed 10 0 }).apply.begin someTexts =
      (.error .defaultOutsideGlobalWindows, someTexts) ∧
    ∃ p', (digestOfTexts {}).asSingletonView.begin someTexts = (.error .cannotProvideCoder, p') ∧
      (digestOfTexts {}).LeavesStage someTexts p' .cannotProvideCoder := by
  have hletters : digestByLetter.apply.begin someTexts =
      (.error .cannotProvideCoder, (digestByLetter.apply.begin someTexts).2) := rfl
  have hfixed : (digestOfTexts { windowFn := .fixed 10 0 }).apply.begin someTexts =
      (.error .defaultOutsideGlobalWindows,
        ((digestOfTexts { windowFn := .fixed 10 0 }).apply.begin someTexts).2) := rfl
  refine ⟨?_, ?_, _, rfl, (failed_combine_pipeline.2 _ _ _ _).2 rfl⟩
  · rw [hletters, failed_combine_pipeline.1 _ _ _ _ _ hletters]
  · rw [hfixed]
    rcases (failed_combine_pipeline.2 _ _ _ _).1 hfixed with ⟨-, hsame⟩ | ⟨hkept, -⟩
    · rw [hsame]
    · exact absurd rfl hkept

/-- Without a coder for its accumulators a combine of a whole collection fails, and leaves a second
node and an edge in a pipeline that had one node. -/
theorem failed_global_combine_grows_pipeline :
    someTexts.graph.nodes.length = 1 ∧ someTexts.graph.edges = [] ∧
    ∃ p', (digestOfTexts {}).apply.begin someTexts = (.error .cannotProvideCoder, p') ∧
      p'.graph.nodes.length = 2 ∧ p'.graph.edges = [(0, 1)] :=
  ⟨rfl, rfl, _, rfl, rfl, rfl⟩

end EventTime
