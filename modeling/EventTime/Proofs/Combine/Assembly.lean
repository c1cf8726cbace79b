import EventTime.Proofs.Combine.Contract

/-!
# Assembling accumulators

An accumulator is created, given inputs, or merged from any number of others that were assembled
before. The inputs of an assembly are those that reach it, from left to right. A combine function
that keeps track of its inputs does so through any assembly, if what it merges from no accumulator
at all stands for no input. If order does not matter to it, all assemblies of the same inputs give
the same output.
-/

namespace EventTime

variable {κ ι α ο : Type}

/-- How an accumulator comes about. -/
inductive Assembly (ι : Type)
  | create
  | add (part : Assembly ι) (input : ι)
  | merge (parts : List (Assembly ι))

namespace Assembly

mutual

/-- The inputs that reach an accumulator, in order. -/
def inputs : Assembly ι → List ι
  | .create => []
  | .add part x => inputs part ++ [x]
  | .merge parts => (inputsEach parts).flatten

def inputsEach : List (Assembly ι) → List (List ι)
  | [] => []
  | part :: rest => inputs part :: inputsEach rest

end

mutual

/-- The accumulator that a combine function assembles. -/
def build (f : CombineFn ι α ο) : Assembly ι → α
  | .create => f.create
  | .add part x => f.add (build f part) x
  | .merge parts => f.merge (buildEach f parts)

def buildEach (f : CombineFn ι α ο) : List (Assembly ι) → List α
  | [] => []
  | part :: rest => build f part :: buildEach f rest

end

end Assembly

namespace KeyedCombineFn

variable {f : KeyedCombineFn κ ι α ο} {R : κ → α → List ι → Prop} {k : κ}

mutual

theorem Tracks.build (h : f.Tracks R) (hnone : R k (f.merge k []) []) :
    (t : Assembly ι) → R k (t.build (f.bind k)) t.inputs
  | .create => h.create k
  | .add part x => h.add (Tracks.build h hnone part) x
  | .merge [] => hnone
  | .merge (part :: rest) =>
    h.merge (List.cons_ne_nil _ _) (Tracks.buildEach h hnone (part :: rest))

theorem Tracks.buildEach (h : f.Tracks R) (hnone : R k (f.merge k []) []) :
    (parts : List (Assembly ι)) →
      List.Forall₂ (R k) (Assembly.buildEach (f.bind k) parts) (Assembly.inputsEach parts)
  | [] => .nil
  | part :: rest => .cons (Tracks.build h hnone part) (Tracks.buildEach h hnone rest)

end

/-- Every assembly with these inputs gives what adding them one by one gives. -/
theorem MultisetContract.extract_build {R : κ → α → Multiset ι → Prop} (h : f.MultisetContract R)
    (hnone : R k (f.merge k []) 0) {t : Assembly ι} {inputs : List ι}
    (hperm : t.inputs.Perm inputs) : f.extract k (t.build (f.bind k)) = f.apply k inputs := by
  have htracks := h.toTracksBag.tracks
  have hbuild : R k (t.build (f.bind k)) t.inputs := htracks.build hnone t
  rw [Multiset.coe_eq_coe.mpr hperm] at hbuild
  exact h.extract hbuild (htracks.addAll k inputs)

end KeyedCombineFn

end EventTime
