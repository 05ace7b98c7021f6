/-
# How large the numbers can get

If every block were visited as often as the bounds of all loops around it allow,
a function would perform its *worst* number of accesses.  While that number is a
word no sum or product of the analysis wraps around, so every range is in order and
none exceeds it (`FunctionDescription.ranges_upTo_worst`).  Nothing else keeps the
numbers small: neither a module nor the bounds of a function are refused for being
too large, and beyond a word a range may be empty or negative.

The worst number is shared out as a budget (`Checked.worstBudget`).  Seen from a
region, a block weighs as much as it performs in one pass through the region, that is
as often as the loops further inside allow (`Graph.weight`).
-/

import ConstantTime.Description.Module
import ConstantTime.Proofs.Access.Budget
import ConstantTime.Proofs.Graph.Passes
import ConstantTime.Proofs.Run.Dossier
import Mathlib.Algebra.BigOperators.Ring.List
import Mathlib.Algebra.Order.BigOperators.Group.List
import Mathlib.Algebra.Order.Ring.Int
import Mathlib.Data.List.TakeWhile
import Mathlib.Tactic.Ring

namespace ConstantTime

/-! ### Sums -/

theorem sum_map_add_le {α : Type} {xs : List α} {f f' : α → Int} {x : α} {d : Int}
    (hle : ∀ x ∈ xs, f x ≤ f' x) (hx : x ∈ xs) (hd : f x + d ≤ f' x) :
    (xs.map f).sum + d ≤ (xs.map f').sum := by
  induction xs with
  | nil => simp at hx
  | cons y xs ih =>
    have hy := hle y List.mem_cons_self
    have hrest : ∀ x ∈ xs, f x ≤ f' x := fun x hx => hle x (List.mem_cons_of_mem _ hx)
    rw [List.map_cons, List.map_cons, List.sum_cons, List.sum_cons]
    rcases List.mem_cons.1 hx with rfl | hx
    · have := List.sum_le_sum hrest
      omega
    · have := ih hrest hx
      omega

/-- What is counted if it is below counts if more is. -/
theorem ite_le_ite_of_imp {p q : Prop} [Decidable p] [Decidable q] {w : Int} (hw : 0 ≤ w)
    (h : p → q) : (if p then w else 0) ≤ if q then w else 0 := by
  split_ifs with hp hq hq
  · exact le_rfl
  · exact absurd (h hp) hq
  · exact hw
  · exact le_rfl

theorem one_le_prod_map {times : LoopId → Int} (htimes : ∀ l, 1 ≤ times l) (ls : List LoopId) :
    1 ≤ (ls.map times).prod := by
  induction ls with
  | nil => simp
  | cons l ls ih =>
    rw [List.map_cons, List.prod_cons]
    exact one_le_mul_of_one_le_of_one_le (htimes l) ih

/-! ### Weights -/

namespace Graph

variable (g : Graph) (count : BlockId → Int) (times : LoopId → Int)

/-- The loops around a block that lie inside a region, inner ones first. -/
def loopsInside (o : Option LoopId) (b : BlockId) : List LoopId :=
  (g.loopsAround b).takeWhile fun l => some l ≠ o

/-- What a block performs at most in one pass through a region, where a pass through
the loop `l` follows another `times l` times. -/
def weight (o : Option LoopId) (b : BlockId) : Int :=
  count b * ((g.loopsInside o b).map times).prod

/-- What the blocks of a region perform at most in one pass. -/
def wholeWeight (o : Option LoopId) : Int :=
  (g.ids.map fun b => if g.contains o b then g.weight count times o b else 0).sum

/-- What those whose node comes before a place perform at most. -/
def weightBefore (o : Option LoopId) (k : Nat) : Int :=
  (g.ids.map fun b =>
    if g.contains o b ∧ g.place (g.nodeIn o b) < k then g.weight count times o b else 0).sum

variable {g count times} {o : Option LoopId} {c m : LoopId} {b : BlockId}

theorem loopsInside_of_level (hb : g.loopOf b = o) : g.loopsInside o b = [] := by
  have hhead := head?_loopsAround g b
  unfold loopsInside
  cases hls : g.loopsAround b with
  | nil => rfl
  | cons l ls =>
    rw [hls, List.head?_cons, hb] at hhead
    rw [List.takeWhile_cons_of_neg (by simpa using hhead)]

theorem weight_of_level (hb : g.loopOf b = o) : g.weight count times o b = count b := by
  rw [weight, loopsInside_of_level hb, List.map_nil, List.prod_nil, mul_one]

theorem loopsInside_none (b : BlockId) : g.loopsInside none b = g.loopsAround b :=
  List.takeWhile_eq_self_iff.2 fun _ _ => by simp

theorem weight_nonneg (hcount : 0 ≤ count b) (htimes : ∀ l, 1 ≤ times l) (o : Option LoopId) :
    0 ≤ g.weight count times o b :=
  Int.mul_nonneg hcount (by have := one_le_prod_map htimes (g.loopsInside o b); omega)

/-- **Seen from further out a block weighs no less.** -/
theorem weight_le_none (hcount : 0 ≤ count b) (htimes : ∀ l, 1 ≤ times l) (o : Option LoopId) :
    g.weight count times o b ≤ g.weight count times none b := by
  have hsplit : g.loopsAround b =
      g.loopsInside o b ++ (g.loopsAround b).dropWhile fun l => some l ≠ o :=
    List.takeWhile_append_dropWhile.symm
  unfold weight
  rw [loopsInside_none, hsplit, List.map_append, List.prod_append]
  refine Int.mul_le_mul_of_nonneg_left ?_ hcount
  have hin := one_le_prod_map htimes (g.loopsInside o b)
  exact le_mul_of_one_le_right (by omega) (one_le_prod_map htimes _)

/-- How often the header of a loop is visited at most, each time the loop is entered. -/
def mostVisits (g : Graph) (bound : LoopBounds) (l : LoopId) : Int :=
  (AccessAnalysis.visits (bound (g.header l))).max.toInt

theorem one_le_mostVisits (g : Graph) (bound : LoopBounds) (l : LoopId) :
    1 ≤ g.mostVisits bound l := by
  rw [mostVisits, AccessAnalysis.visits_max]
  exact le_max_right ..

namespace Checked

variable (hg : g.Checked)
include hg

/-- The loops inside a region are those inside the loop directly inside, and this
loop. -/
theorem loopsInside_of_child (hc : g.IsChild o c) (hb : g.Within c b) :
    g.loopsInside o b = g.loopsInside (some c) b ++ [c] := by
  obtain ⟨inner, outer, hsplit⟩ := List.append_of_mem (hg.mem_loopsAround.2 hb)
  have hnodup : (g.loopsAround b).Nodup := (hg.loopsAround_spec b).1.nodup_iff.2 (nodup_around ..)
  have hpair := hg.pairwise_loopsAround b
  have hchain := isChain_loopsAround g b
  rw [hsplit] at hnodup hpair hchain
  have hinner : ∀ l ∈ inner, l ≠ c := fun l hl => by
    have := (List.nodup_append.1 hnodup).2.2 l hl c List.mem_cons_self
    exact this
  -- the region is directly around the loop, so it comes next, or nothing does
  have hregion : ∀ l ∈ inner, some l ≠ o := fun l hl he => by
    obtain ⟨hne, hlc, -⟩ := hg.parent_eq_some hc.1 (hc.2.trans he.symm)
    have hcl := (List.pairwise_append.1 hpair).2.2 l hl c List.mem_cons_self
    exact hne (hg.within_antisymm hlc hcl)
  have hself : some c ≠ o := fun he => (hg.parent_eq_some hc.1 (hc.2.trans he.symm)).1 rfl
  have hnext : outer.takeWhile (fun l => some l ≠ o) = [] := by
    cases outer with
    | nil => rfl
    | cons l outer =>
      have hl : g.parent (some c) = some l := (List.isChain_append.1 hchain).2.1.rel
      rw [List.takeWhile_cons_of_neg (by simp [← hl, hc.2])]
  unfold loopsInside
  rw [hsplit, List.takeWhile_append_of_pos fun l hl => by simpa using hregion l hl,
    List.takeWhile_append_of_pos fun l hl => by simpa using hinner l hl,
    List.takeWhile_cons_of_pos (by simpa using hself), List.takeWhile_cons_of_neg (by simp), hnext,
    List.append_nil]

/-- **A block of a loop weighs as much for each pass through the loop.** -/
theorem weight_of_child (hc : g.IsChild o c) (hb : g.Within c b) :
    g.weight count times o b = times c * g.weight count times (some c) b := by
  rw [weight, weight, hg.loopsInside_of_child hc hb, List.map_append, List.prod_append,
    List.map_singleton, List.prod_singleton]
  ring

/-! ### The budget of the worst number -/

section

variable (hcount : ∀ b ∈ g.ids, 0 ≤ count b) (htimes : ∀ l, 1 ≤ times l)

omit hg

include hcount htimes in
theorem weightBefore_mono (o : Option LoopId) {j k : Nat} (hjk : j ≤ k) :
    g.weightBefore count times o j ≤ g.weightBefore count times o k := by
  refine List.sum_le_sum fun b hb => ?_
  exact ite_le_ite_of_imp (weight_nonneg (hcount b hb) htimes o) fun h => ⟨h.1, by omega⟩

include hcount htimes in
theorem weightBefore_nonneg (o : Option LoopId) (k : Nat) : 0 ≤ g.weightBefore count times o k := by
  refine List.sum_nonneg fun x hx => ?_
  obtain ⟨b, hb, rfl⟩ := List.mem_map.1 hx
  split_ifs
  · exact weight_nonneg (hcount b hb) htimes o
  · exact le_rfl

include hcount htimes in
theorem weightBefore_le_whole (o : Option LoopId) (k : Nat) :
    g.weightBefore count times o k ≤ g.wholeWeight count times o := by
  refine List.sum_le_sum fun b hb => ?_
  exact ite_le_ite_of_imp (weight_nonneg (hcount b hb) htimes o) And.left

include hcount htimes in
theorem wholeWeight_le_none (o : Option LoopId) :
    g.wholeWeight count times o ≤ g.wholeWeight count times none := by
  refine List.sum_le_sum fun b hb => ?_
  have hnone : g.contains none b = true := rfl
  rw [if_pos hnone]
  split_ifs
  · exact weight_le_none (hcount b hb) htimes o
  · exact weight_nonneg (hcount b hb) htimes none

include hg hcount htimes

theorem weightBefore_block {b : BlockId} (hb : b ∈ g.ids) :
    g.weightBefore count times (g.loopOf b) (g.place b) + count b ≤
      g.weightBefore count times (g.loopOf b) (g.place b + 1) := by
  refine sum_map_add_le (x := b) (fun x hx => ?_) hb ?_
  · exact ite_le_ite_of_imp (weight_nonneg (hcount x hx) htimes _) fun h => ⟨h.1, by omega⟩
  · have hin : g.contains (g.loopOf b) b = true := hg.inside_of_level rfl
    rw [nodeIn_of_level rfl, weight_of_level rfl, if_neg (by omega), if_pos ⟨hin, by omega⟩]
    omega

theorem weightBefore_loop (hm : m < g.loops.length) :
    g.weightBefore count times (g.parent (some m)) (g.place (g.header m)) +
        times m * g.wholeWeight count times (some m) ≤
      g.weightBefore count times (g.parent (some m)) (g.place (g.header m) + 1) := by
  have hchild : g.IsChild (g.parent (some m)) m := ⟨hm, rfl⟩
  rw [wholeWeight, ← List.sum_map_mul_left, weightBefore, ← List.sum_map_add]
  refine List.sum_le_sum fun b hb => ?_
  by_cases hin : g.Within m b
  · -- the header of the loop is the node of all its blocks
    have hcontains : g.contains (g.parent (some m)) b = true := hg.inside_of_child hchild hin
    have hself : g.contains (some m) b = true := hin
    rw [hg.nodeIn_of_child hchild hin, if_neg (by omega), if_pos hself,
      if_pos ⟨hcontains, by omega⟩, hg.weight_of_child hchild hin]
    omega
  · have hself : ¬ g.contains (some m) b = true := hin
    rw [if_neg hself, mul_zero, add_zero]
    exact ite_le_ite_of_imp (weight_nonneg (hcount b hb) htimes _) fun h => ⟨h.1, by omega⟩

end

/-- **The worst number as a budget**, for counts and bounds that are words. -/
def worstBudget {count : AccessCounts} (bound : LoopBounds)
    (hcount : ∀ b ∈ g.ids, 0 ≤ (count b).toInt) : AccessBudget g count bound where
  spent := g.weightBefore (fun b => (count b).toInt) (g.mostVisits bound)
  whole := g.wholeWeight (fun b => (count b).toInt) (g.mostVisits bound)
  nonneg := weightBefore_nonneg hcount (one_le_mostVisits g bound)
  mono := weightBefore_mono hcount (one_le_mostVisits g bound)
  le_whole := weightBefore_le_whole hcount (one_le_mostVisits g bound)
  block _ hb := hg.weightBefore_block hcount (one_le_mostVisits g bound) hb
  loop _ hm := hg.weightBefore_loop hcount (one_le_mostVisits g bound) hm

end Checked
end Graph

/-! ### What a description promises -/

/-- How many accesses a block performs, not as a word. -/
def BlockDescription.performed (d : BlockDescription) : Int :=
  match d.accesses with
  | some n => n.toInt
  | none => d.instrs.countP fun i => i.any Instr.hasVariableLatency

namespace FunctionDescription

/-- How many accesses the block with a number performs; none if there is none. -/
def performed (f : FunctionDescription) (b : BlockId) : Int :=
  ((f.block? b).map BlockDescription.performed).getD 0

/-- **The worst number of accesses**: every block is visited as often as the bounds of
the loops around it allow. -/
def worst (f : FunctionDescription) (g : Graph) (bounds : BoundTable) : Int :=
  (g.ids.map fun b => f.performed b *
    ((g.loopsAround b).map (g.mostVisits fun h => bounds.getD h ⟨0, 0⟩)).prod).sum

variable {f : FunctionDescription} {g : Graph} {config : Config} {bounds : BoundTable} {b : BlockId}

theorem toInt_accesses (h : f.performed b < 2 ^ 63) : (f.accesses b).toInt = f.performed b := by
  unfold performed at h ⊢
  unfold accesses
  cases hd : f.block? b with
  | none => rfl
  | some d =>
    simp only [hd, Option.map_some, Option.getD_some, BlockDescription.performed,
      BlockDescription.accessCount] at h ⊢
    cases hn : d.accesses with
    | some n => rfl
    | none =>
      simp only [hn] at h
      rw [Option.getD_none, Int64.toInt_ofNat_of_lt (by exact_mod_cast h)]

/-- The bounds of a function are in order if the one that may stand in for them is. -/
theorem bounds_ordered (hdefault : config.defaultLoopBound.isOrdered = true)
    (h : f.bounds g config = .ok bounds) (b : BlockId) :
    (bounds.getD b ⟨0, 0⟩).isOrdered = true := by
  refine Outcome.foldlM_keeps (P := fun m : BoundTable => ∀ b, (m.getD b ⟨0, 0⟩).isOrdered = true)
    (fun m l _ m' hm' hm b => ?_) (fun b => rfl) h b
  obtain ⟨n, hn, hins⟩ := Outcome.bind_eq_ok.1 hm'
  obtain rfl := Outcome.pure_eq_ok.1 hins
  rw [OrderedMap.getD_insert]
  split
  · unfold boundOf at hn
    split at hn
    · cases hn
    · split at hn
      · split at hn
        · cases hn
          exact hdefault
        · cases hn
      · split at hn
        · next ho =>
          cases hn
          exact ho
        · cases hn
  · exact hm b

end FunctionDescription

namespace ModuleDescription

variable {m : ModuleDescription} {f : FunctionDescription}

theorem checkBlock_eq_ok {d : BlockDescription} (h : checkBlock f (some d) = .ok ()) :
    0 ≤ d.performed := by
  unfold BlockDescription.performed
  unfold checkBlock at h
  dsimp only at h
  split at h
  · next hn =>
    rw [hn]
    exact Int.natCast_nonneg _
  · next n hn =>
    rw [hn]
    split at h
    · cases h
    · next hneg =>
      rw [Int64.lt_iff_toInt_lt, Int64.toInt_zero] at hneg
      exact Int.not_lt.1 hneg

theorem checkFunction_eq_ok {seen : List String} {i : Nat} {name : String}
    (h : checkFunction seen i (some f) = .ok name) : f.entries.forM (checkBlock f) = .ok () := by
  unfold checkFunction at h
  dsimp only at h
  split at h
  · cases h
  split at h
  · cases h
  split at h
  · cases h
  · obtain ⟨⟨⟩, hall, -⟩ := Outcome.bind_eq_ok.1 h
    exact hall

theorem checkFunctions_eq_ok {fs : Listing FunctionDescription} {seen : List String} {i : Nat}
    (h : checkFunctions seen i fs = .ok ()) (hf : some f ∈ fs) :
    ∀ d ∈ f.entries, checkBlock f d = .ok () := by
  induction fs generalizing seen i with
  | nil => simp at hf
  | cons x fs ih =>
    rw [checkFunctions, Outcome.bind_eq_ok] at h
    obtain ⟨name, hx, hrest⟩ := h
    rcases List.mem_cons.1 hf with rfl | hf
    · exact Outcome.forM_eq_ok (checkFunction_eq_ok hx)
    · exact ih hrest hf

/-- **No block of a valid module performs a negative number of accesses.** -/
theorem performed_nonneg (hm : m.validate = .ok ()) (hf : some f ∈ m.entries) (b : BlockId) :
    0 ≤ f.performed b := by
  unfold FunctionDescription.performed
  cases hd : f.block? b with
  | none => exact le_rfl
  | some d =>
    have hmem : some d ∈ f.entries := by
      unfold FunctionDescription.block? at hd
      split at hd
      · exact List.mem_of_getElem? (Option.join_eq_some_iff.1 hd)
      · cases hd
    exact checkBlock_eq_ok (checkFunctions_eq_ok hm hf _ hmem)

end ModuleDescription
namespace FunctionDescription

variable {m : ModuleDescription} {f : FunctionDescription} {g : Graph} {config : Config}
  {bounds : BoundTable} {limit : Int64} {a : AccessAnalysis}

/-- The words that an analysis adds up are the numbers of the description. -/
theorem worst_eq_wholeWeight (hnonneg : ∀ b, 0 ≤ f.performed b)
    (hworst : f.worst g bounds < 2 ^ 63) :
    (∀ b ∈ g.ids, (f.accesses b).toInt = f.performed b) ∧
      f.worst g bounds = g.wholeWeight (fun b => (f.accesses b).toInt)
        (g.mostVisits fun h => bounds.getD h ⟨0, 0⟩) none := by
  have htimes := one_le_prod_map (g.one_le_mostVisits fun h => bounds.getD h ⟨0, 0⟩)
  have hle : ∀ b ∈ g.ids, f.performed b ≤ f.worst g bounds := fun b hb => by
    have hsum : (g.ids.map fun _ => (0 : Int)).sum + f.performed b ≤ f.worst g bounds := by
      refine sum_map_add_le (fun x _ => Int.mul_nonneg (hnonneg x) ?_) hb ?_
      · have := htimes (g.loopsAround x)
        omega
      · rw [zero_add]
        exact le_mul_of_one_le_right (hnonneg b) (htimes (g.loopsAround b))
    simpa using hsum
  have hwords : ∀ b ∈ g.ids, (f.accesses b).toInt = f.performed b := fun b hb =>
    toInt_accesses ((hle b hb).trans_lt hworst)
  refine ⟨hwords, congrArg List.sum (List.map_congr_left fun b hb => ?_)⟩
  have hnone : g.contains none b = true := rfl
  rw [if_pos hnone, Graph.weight, Graph.loopsInside_none, hwords b hb]

/-- **Ranges are in order while the worst number of accesses is a word.**  For a
function of a valid module, with the bounds of its description, no sum or product of
the analysis wraps around and every range is in order, without a negative number, and
does not exceed the worst number. -/
theorem ranges_upTo_worst (hm : m.validate = .ok ()) (hf : some f ∈ m.entries)
    (hgraph : f.graph = .ok g) (hdefault : config.defaultLoopBound.isOrdered = true)
    (hbounds : f.bounds g config = .ok bounds)
    (ha : AccessAnalysis.ofGraph g f.accesses (fun h => bounds.getD h ⟨0, 0⟩) limit = .ok a)
    (hworst : f.worst g bounds < 2 ^ 63) :
    (∀ r ∈ a.ranges, r.UpTo (f.worst g bounds)) ∧
      (∀ rootLike r, a.total g rootLike = .ok r → r.UpTo (f.worst g bounds)) ∧
      a.NoWrap g f.accesses fun h => bounds.getD h ⟨0, 0⟩ := by
  have hg := (graph_accepted hgraph).checked
  have hnonneg := ModuleDescription.performed_nonneg hm hf
  obtain ⟨hwords, hwhole⟩ := worst_eq_wholeWeight hnonneg hworst
  have hcount : ∀ b ∈ g.ids, 0 ≤ (f.accesses b).toInt := fun b hb => hwords b hb ▸ hnonneg b
  have hordered : ∀ h : BlockId, (bounds.getD h ⟨0, 0⟩).min ≤ (bounds.getD h ⟨0, 0⟩).max := by
    intro h
    have := bounds_ordered hdefault hbounds h
    rw [Bound.isOrdered, Bool.and_eq_true, decide_eq_true_eq, decide_eq_true_eq] at this
    exact this.2
  let β := hg.worstBudget (fun h => bounds.getD h ⟨0, 0⟩) hcount
  have hle : ∀ o, β.whole o ≤ f.worst g bounds := fun o =>
    hwhole ▸ Graph.Checked.wholeWeight_le_none hcount (g.one_le_mostVisits _) o
  have hranges := hg.ranges_upTo (β := β) ha hcount (fun m _ => hordered _) hle hworst
  refine ⟨hranges, fun rootLike r hr => AccessAnalysis.total_upTo hranges hr, ?_⟩
  exact hg.noWrap (β := β) (hg.settled_ofGraph ha) hcount (fun o => (hle o).trans_lt hworst)
    fun m _ => hordered _

/-- A loop whose header `h` is visited one to three times; the header and the body
`b` perform 2^60 accesses each. -/
def heavyLoop : FunctionDescription where
  name := "f"
  root := true
  blocks := some [some { name := "a", succs := ["h"], accesses := some 0 },
    some { name := "h", succs := ["b", "e"], accesses := some (2 ^ 60), bound := some ⟨1, 3⟩ },
    some { name := "b", succs := ["h"], accesses := some (2 ^ 60) },
    some { name := "e", accesses := some 0 }]

end FunctionDescription

/-- The graph of `heavyLoop`: the blocks `a`, `h`, `b` and `e` are numbered in this order. -/
def Graph.heavyLoop : Graph := FunctionDescription.heavyLoop.graph.toOption.get (by decide +kernel)

/-- The analysis of `heavyLoop`. -/
def AccessAnalysis.heavyLoop : AccessAnalysis :=
  (AccessAnalysis.ofGraph .heavyLoop FunctionDescription.heavyLoop.accesses
    (fun h => OrderedMap.getD (.ofList [(1, ⟨1, 3⟩)]) h ⟨0, 0⟩) 50).toOption.get (by decide +kernel)

/-- The worst number of `heavyLoop` is six times 2^60, so nothing wraps around; its
range ends at five times 2^60, as the last round leaves the body out. -/
theorem FunctionDescription.ranges_upTo_worst_heavy_loop :
    heavyLoop.worst .heavyLoop (.ofList [(1, ⟨1, 3⟩)]) = 6 * 2 ^ 60 ∧
      (∀ r ∈ AccessAnalysis.heavyLoop.ranges, r.UpTo (6 * 2 ^ 60)) ∧
      AccessAnalysis.heavyLoop.total .heavyLoop true = .ok ⟨2 ^ 60, 5 * 2 ^ 60⟩ := by
  have hworst : heavyLoop.worst .heavyLoop (.ofList [(1, ⟨1, 3⟩)]) = 6 * 2 ^ 60 := by decide +kernel
  have hvalid : ModuleDescription.validate { functions := some [some heavyLoop] } = .ok () := by
    decide +kernel
  have hgraph : heavyLoop.graph = .ok .heavyLoop := Outcome.eq_ok_get _
  have hbounds : heavyLoop.bounds .heavyLoop {} = .ok (.ofList [(1, ⟨1, 3⟩)]) := by decide +kernel
  have hanalysis : AccessAnalysis.ofGraph .heavyLoop heavyLoop.accesses
      (fun h => OrderedMap.getD (.ofList [(1, ⟨1, 3⟩)]) h ⟨0, 0⟩) 50 = .ok .heavyLoop :=
    Outcome.eq_ok_get _
  obtain ⟨hranges, -, -⟩ := ranges_upTo_worst hvalid List.mem_cons_self hgraph rfl hbounds hanalysis
    (by rw [hworst]; decide)
  rw [hworst] at hranges
  exact ⟨hworst, hranges, by decide +kernel⟩

/-- One access more than a word holds is too many: two blocks in a row with 2^62
accesses each have a range that begins and ends below zero. -/
example : (AccessAnalysis.ofGraph (.drawn 2 [(0, 1)] (by decide +kernel)) (fun _ => 2 ^ 62)
    (fun _ => ⟨1, 1⟩) 50).toOption.bind (fun a => a.blocks.get? 1) = some ⟨-2 ^ 63, -2 ^ 63⟩ := by
  decide +kernel

end ConstantTime
