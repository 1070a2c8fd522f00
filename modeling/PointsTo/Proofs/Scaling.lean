import Mathlib.Data.List.GetD
import Mathlib.Data.List.Perm.Subperm
import PointsTo.Ascending
import PointsTo.Precision.Scaler
import PointsTo.Proofs.Reading

/-!
Variants within a budget. A less precise variant never costs more, since its contexts are images of
those of the one before. So costs rise with the threshold, and the thresholds that fit the budget come
first among the candidates.
-/
namespace PointsTo

variable {α : Type}

theorem eraseDups_spec [BEq α] [LawfulBEq α] (l : List α) : l.eraseDups.Sublist l ∧ l.eraseDups.Nodup := by
  -- what is left after the first item was taken out is no tail of the list, but shorter
  induction size : l.length using Nat.strongRecOn generalizing l with
  | ind n ih =>
    cases l with
    | nil => exact ⟨List.Sublist.slnil, List.nodup_nil⟩
    | cons a rest =>
      have smaller := List.length_filter_le (fun b => !b == a) rest
      obtain ⟨kept, distinct⟩ := ih _ (by rw [← size]; exact Nat.lt_succ_of_le smaller) _ rfl
      rw [List.eraseDups_cons]
      exact ⟨(kept.trans List.filter_sublist).cons_cons a,
        List.nodup_cons.mpr ⟨by simp [List.mem_eraseDups], distinct⟩⟩

theorem eraseDups_snoc [DecidableEq α] (l : List α) (a : α) :
    (l ++ [a]).eraseDups = if a ∈ l.eraseDups then l.eraseDups else l.eraseDups ++ [a] := by
  rw [List.eraseDups_append]
  split
  · next known => simp [List.removeAll, List.mem_eraseDups.mp known]
  · next new => simp [List.removeAll, mt List.mem_eraseDups.mpr new, List.eraseDups_cons]

theorem length_eraseDups_le {β : Type} [BEq α] [LawfulBEq α] [BEq β] [LawfulBEq β] {items : List α}
    {images : List β} (f : α → β) (covered : ∀ b ∈ images, ∃ a ∈ items, f a = b) :
    images.eraseDups.length ≤ items.eraseDups.length := by
  have among : images.eraseDups ⊆ items.eraseDups.map f := by
    intro b member
    obtain ⟨a, listed, same⟩ := covered b (List.mem_eraseDups.mp member)
    exact List.mem_map.mpr ⟨a, List.mem_eraseDups.mpr listed, same⟩
  calc images.eraseDups.length ≤ (items.eraseDups.map f).length :=
        (List.subperm_of_subset (eraseDups_spec images).2 among).length_le
    _ = items.eraseDups.length := List.length_map _

theorem ascending_strict (items : List Nat) : (ascending items).Pairwise (· < ·) := by
  have sorted : (items.mergeSort (· ≤ ·)).Pairwise fun a b => decide (a ≤ b) = true := by
    refine List.pairwise_mergeSort (fun a b c ab bc => ?_) (fun a b => ?_) _
    · exact decide_eq_true (Nat.le_trans (of_decide_eq_true ab) (of_decide_eq_true bc))
    · simpa using Nat.le_total a b
  obtain ⟨kept, distinct⟩ := eraseDups_spec (items.mergeSort (· ≤ ·))
  refine ((sorted.sublist kept).and distinct).imp ?_
  rintro a b ⟨le, different⟩
  exact Nat.lt_of_le_of_ne (of_decide_eq_true le) different

namespace Result

variable (r : Result) (m : MethodId)

theorem exists_mem_allocators (o : ObjId) : ∃ a, a ∈ r.allocators o := by
  unfold allocators
  split
  · exact ⟨none, List.mem_singleton_self _⟩
  · next some =>
    obtain ⟨a, listed⟩ := List.exists_mem_of_ne_nil _ some
    exact ⟨a, List.mem_map_of_mem listed⟩

/-- Types of pairs are images of pairs, and types of receivers are images of those. -/
theorem contextCounts_falling : ∃ a b c, r.contextCounts m = [a, b, c, 1] ∧ b ≤ a ∧ c ≤ b := by
  refine ⟨_, _, _, rfl, ?_, ?_⟩
  · refine length_eraseDups_le (fun x => (r.allocatingClass? x.1, x.2.bind r.allocatingClass?)) ?_
    intro classes member
    exact List.mem_map.mp member
  · refine length_eraseDups_le Prod.fst ?_
    intro class? member
    obtain ⟨o, receiver, rfl⟩ := List.mem_map.mp member
    obtain ⟨a, allocator⟩ := r.exists_mem_allocators o
    have pair : (o, a) ∈ (r.receivers m).flatMap fun o => (r.allocators o).map fun a => (o, a) :=
      List.mem_flatMap.mpr ⟨o, receiver, List.mem_map_of_mem allocator⟩
    exact ⟨_, List.mem_map_of_mem pair, rfl⟩

theorem volume_pos : 0 < r.volume m := by
  unfold volume
  split
  · exact Nat.lt_of_lt_of_le Nat.zero_lt_one (Nat.le_max_left 1 _)
  · exact Nat.zero_lt_one

end Result

namespace MethodCosts

variable {c : MethodCosts} {s t i : Nat}

/-- A cost for every variant, none of them nothing, and a less precise one costs no more. -/
structure Falling (c : MethodCosts) : Prop where
  length : c.costs.length = scalerVariants.length
  falls : c.costs.Pairwise (· ≥ ·)
  positive : ∀ n ∈ c.costs, 0 < n

theorem ofMethod_falling (r : Result) (m : MethodId) : (ofMethod r m).Falling := by
  obtain ⟨a, b, c, counts, second, third⟩ := r.contextCounts_falling m
  have order : ∀ x y, max x 1 ≤ max y 1 →
      min costLimit (r.volume m * max x 1) ≤ min costLimit (r.volume m * max y 1) := by
    intro x y le
    have scaled := Nat.mul_le_mul_left (r.volume m) le
    omega
  refine ⟨by simp [ofMethod, counts, scalerVariants], ?_, ?_⟩
  · rw [ofMethod, counts, List.pairwise_map]
    simp only [List.pairwise_cons, List.mem_cons, List.not_mem_nil, or_false]
    refine ⟨?_, ?_, ?_, fun _ => False.elim, List.Pairwise.nil⟩
    · rintro x (rfl | rfl | rfl) <;> exact order _ _ (by omega)
    · rintro x (rfl | rfl) <;> exact order _ _ (by omega)
    · rintro x rfl
      exact order _ _ (by omega)
  · intro n member
    obtain ⟨x, _, rfl⟩ := List.mem_map.mp member
    have product := Nat.mul_pos (r.volume_pos m) (Nat.lt_of_lt_of_le Nat.zero_lt_one (Nat.le_max_right x 1))
    have limit : 0 < costLimit := by decide
    omega

theorem choice_le_of_cost (known : i < c.costs.length) (within : c.costs[i] ≤ t) : c.choice t ≤ i := by
  unfold choice
  split
  · next j first =>
    obtain ⟨_, _, before⟩ := List.findIdx?_eq_some_iff_getElem.mp first
    by_contra later
    exact before i (Nat.lt_of_not_le later) (decide_eq_true within)
  · next none =>
    have above := List.findIdx?_eq_none_iff.mp none _ (List.getElem_mem known)
    exact absurd within (of_decide_eq_false above)

theorem Falling.choice_lt (falling : c.Falling) (t : Nat) : c.choice t < scalerVariants.length := by
  unfold choice
  split
  · next first =>
    obtain ⟨inside, _⟩ := List.findIdx?_eq_some_iff_getElem.mp first
    exact falling.length ▸ inside
  · decide

/-- A variant that is not the last was chosen because it is within the threshold. -/
theorem cost_le_of_choice (early : c.choice t < scalerVariants.length - 1) : c.cost t ≤ t := by
  unfold cost
  unfold choice at early ⊢
  split at early
  · next first =>
    obtain ⟨inside, within, _⟩ := List.findIdx?_eq_some_iff_getElem.mp first
    rw [List.getD_eq_getElem _ _ inside]
    exact of_decide_eq_true within
  · exact absurd early (Nat.lt_irrefl _)

theorem Falling.getElem_choice (falling : c.Falling) (t : Nat) :
    ∃ inside : c.choice t < c.costs.length, c.cost t = c.costs[c.choice t] := by
  have inside := falling.choice_lt t
  rw [← falling.length] at inside
  exact ⟨inside, List.getD_eq_getElem _ _ inside⟩

/-- What is within one threshold is within another, or nothing but the last variant is. -/
theorem Falling.choice_le (falling : c.Falling)
    (within : c.choice s < scalerVariants.length - 1 → c.cost s ≤ t) : c.choice t ≤ c.choice s := by
  by_cases early : c.choice s < scalerVariants.length - 1
  · obtain ⟨inside, same⟩ := falling.getElem_choice s
    exact choice_le_of_cost inside (same ▸ within early)
  · have last := falling.choice_lt t
    omega

theorem Falling.cost_le (falling : c.Falling) (le : s ≤ t) : c.cost s ≤ c.cost t := by
  have earlier := falling.choice_le fun early => Nat.le_trans (cost_le_of_choice early) le
  obtain ⟨inside, same⟩ := falling.getElem_choice s
  obtain ⟨inside', same'⟩ := falling.getElem_choice t
  rw [same, same']
  rcases Nat.eq_or_lt_of_le earlier with equal | before
  · simp [equal]
  · exact List.pairwise_iff_getElem.mp falling.falls _ _ inside' inside before

theorem Falling.choice_zero (falling : c.Falling) : c.choice 0 = scalerVariants.length - 1 := by
  have last := falling.choice_lt 0
  by_contra early
  obtain ⟨inside, same⟩ := falling.getElem_choice 0
  have free := cost_le_of_choice (c := c) (t := 0) (by omega)
  have positive := falling.positive _ (List.getElem_mem inside)
  omega

end MethodCosts

theorem totalCost_le {costs : List MethodCosts} {s t : Nat} (each : ∀ c ∈ costs, c.cost s ≤ c.cost t) :
    totalCost costs s ≤ totalCost costs t := by
  have fold : ∀ a b, a ≤ b → costs.foldl (fun sum c => min costLimit (sum + c.cost s)) a ≤
      costs.foldl (fun sum c => min costLimit (sum + c.cost t)) b := by
    induction costs with
    | nil => exact fun _ _ le => le
    | cons c rest ih =>
      intro a b le
      have first := each c List.mem_cons_self
      have step : min costLimit (a + c.cost s) ≤ min costLimit (b + c.cost t) := by omega
      exact ih (fun d member => each d (List.mem_cons_of_mem c member)) _ _ step
  exact fold 0 0 (Nat.le_refl 0)

/-- The first `k` items pass a test and the others fail it. -/
def PartsAt (test : Nat → Bool) (items : List Nat) (k : Nat) : Prop :=
  (∀ n ∈ items.take k, test n = true) ∧ ∀ n ∈ items.drop k, test n = false

section Parting

variable {test : Nat → Bool} {items : List Nat} {k n : Nat}

theorem exists_partsAt (rising : items.Pairwise (· < ·))
    (down : ∀ a b, a ≤ b → test b = true → test a = true) :
    ∃ k, k ≤ items.length ∧ PartsAt test items k := by
  induction items with
  | nil => exact ⟨0, Nat.le_refl 0, by simp [PartsAt]⟩
  | cons a rest ih =>
    obtain ⟨above, rising⟩ := List.pairwise_cons.mp rising
    by_cases passes : test a = true
    · obtain ⟨k, inside, before, after⟩ := ih rising
      refine ⟨k + 1, Nat.succ_le_succ inside, ?_, after⟩
      simpa [passes] using before
    · refine ⟨0, Nat.zero_le _, by simp, fun n member => ?_⟩
      -- a later item is larger, and would bring `a` with it
      refine Bool.eq_false_iff.mpr fun fits => passes ?_
      rcases List.mem_cons.mp member with rfl | later
      · exact fits
      · exact down a n (Nat.le_of_lt (above n later)) fits

theorem PartsAt.takeWhile_eq (parts : PartsAt test items k) : items.takeWhile test = items.take k := by
  conv_lhs => rw [← List.take_append_drop k items, List.takeWhile_append_of_pos parts.1]
  cases rest : items.drop k with
  | nil => simp
  | cons a later =>
    have fails := parts.2 a (by simp [rest])
    simp [fails]

theorem PartsAt.mem_take (parts : PartsAt test items k) (member : n ∈ items) (passes : test n = true) :
    n ∈ items.take k := by
  rw [← List.take_append_drop k items] at member
  refine (List.mem_append.mp member).resolve_right fun later => ?_
  cases (parts.2 n later).symm.trans passes

theorem le_getLast?_of_mem (rising : items.Pairwise (· < ·)) (member : n ∈ items) :
    n ≤ items.getLast?.getD 0 := by
  cases ends : items.getLast? with
  | none =>
    rw [List.getLast?_eq_none_iff.mp ends] at member
    cases member
  | some last => exact le_getLast_of_ascending rising ends member

end Parting

/-- The thresholds at which a choice changes. -/
def candidates (costs : List MethodCosts) : List Nat := ascending (costs.flatMap (·.costs))

/-- The last of the first `k` candidates. -/
def thresholdAt (costs : List MethodCosts) (k : Nat) : Nat :=
  if k = 0 then 0 else (candidates costs).getD (k - 1) 0

section Threshold

variable {costs : List MethodCosts} {budget s t k : Nat}

theorem totalCost_mono (falling : ∀ c ∈ costs, c.Falling) (le : s ≤ t) :
    totalCost costs s ≤ totalCost costs t := totalCost_le fun c member => (falling c member).cost_le le

theorem candidates_parted (falling : ∀ c ∈ costs, c.Falling) (budget : Nat) :
    ∃ k, k ≤ (candidates costs).length ∧
      PartsAt (fun t => decide (totalCost costs t ≤ budget)) (candidates costs) k := by
  refine exists_partsAt (ascending_strict _) fun a b le fits => ?_
  exact decide_eq_true (Nat.le_trans (totalCost_mono falling le) (of_decide_eq_true fits))

theorem scalerThreshold_eq
    (parts : PartsAt (fun t => decide (totalCost costs t ≤ budget)) (candidates costs) k) :
    scalerThreshold costs budget = ((candidates costs).take k).getLast?.getD 0 := by
  rw [← parts.takeWhile_eq]
  rfl

theorem thresholdAt_eq (inside : k ≤ (candidates costs).length) :
    thresholdAt costs k = ((candidates costs).take k).getLast?.getD 0 := by
  rw [thresholdAt, List.getLast?_take]
  split
  · rfl
  · next some =>
    have last : k - 1 < (candidates costs).length := by omega
    simp [last]

theorem le_scalerThreshold (falling : ∀ c ∈ costs, c.Falling) (candidate : t ∈ candidates costs)
    (fits : totalCost costs t ≤ budget) : t ≤ scalerThreshold costs budget := by
  obtain ⟨k, _, parts⟩ := candidates_parted falling budget
  rw [scalerThreshold_eq parts]
  exact le_getLast?_of_mem ((ascending_strict _).sublist (List.take_sublist k _))
    (parts.mem_take candidate (decide_eq_true fits))

theorem scalerThreshold_fits (falling : ∀ c ∈ costs, c.Falling) (budget : Nat) :
    totalCost costs (scalerThreshold costs budget) ≤ budget ∨ scalerThreshold costs budget = 0 := by
  obtain ⟨k, _, parts⟩ := candidates_parted falling budget
  rw [scalerThreshold_eq parts]
  cases last : ((candidates costs).take k).getLast? with
  | none => exact Or.inr rfl
  | some t =>
    obtain ⟨before, same⟩ := List.getLast?_eq_some_iff.mp last
    exact Or.inl (of_decide_eq_true (parts.1 t (by simp [same])))

/-- No threshold within the budget gives a method a variant before the one that it gets. -/
theorem choice_scalerThreshold_le (falling : ∀ c ∈ costs, c.Falling) {c : MethodCosts} (member : c ∈ costs)
    (fits : totalCost costs t ≤ budget) : c.choice (scalerThreshold costs budget) ≤ c.choice t := by
  refine (falling c member).choice_le fun early => ?_
  -- the cost of the chosen variant is a candidate, and not above `t`
  have below := MethodCosts.cost_le_of_choice early
  obtain ⟨inside, same⟩ := (falling c member).getElem_choice t
  have candidate : c.cost t ∈ candidates costs :=
    mem_ascending.mpr (List.mem_flatMap.mpr ⟨c, member, same ▸ List.getElem_mem inside⟩)
  exact le_scalerThreshold falling candidate (Nat.le_trans (totalCost_mono falling below) fits)

end Threshold

namespace Result

def price (r : Result) (m : MethodId) (spec : ContextSpec) : Nat :=
  (MethodCosts.ofMethod r m).costs.getD (scalerVariants.idxOf spec) 0

/-- What choices cost together, at most the largest number of a word. -/
def bill (r : Result) (choices : List (MethodId × ContextSpec)) : Nat :=
  choices.foldl (fun sum c => min costLimit (sum + r.price c.1 c.2)) 0

def choicesAt (r : Result) (threshold : Nat) : List (MethodId × ContextSpec) :=
  r.reachableMethods.map fun m =>
    (m, scalerVariants.getD ((MethodCosts.ofMethod r m).choice threshold) .insensitive)

def withoutContexts (r : Result) : List (MethodId × ContextSpec) :=
  r.reachableMethods.map fun m => (m, .insensitive)

def methodCosts (r : Result) : List MethodCosts := r.reachableMethods.map (MethodCosts.ofMethod r)

variable {r : Result} {budget : Nat}

theorem methodCosts_falling : ∀ c ∈ r.methodCosts, c.Falling := by
  intro c member
  obtain ⟨m, _, rfl⟩ := List.mem_map.mp member
  exact MethodCosts.ofMethod_falling r m

theorem idxOf_variant : ∀ i < scalerVariants.length,
    scalerVariants.idxOf (scalerVariants.getD i .insensitive) = i := by decide

theorem bill_choicesAt (t : Nat) : r.bill (r.choicesAt t) = totalCost r.methodCosts t := by
  have prices : ∀ m, r.price m (scalerVariants.getD ((MethodCosts.ofMethod r m).choice t) .insensitive) =
      (MethodCosts.ofMethod r m).cost t := by
    intro m
    rw [price, idxOf_variant _ ((MethodCosts.ofMethod_falling r m).choice_lt t)]
    rfl
  simp only [bill, choicesAt, totalCost, methodCosts, List.foldl_map, prices]

theorem choicesAt_zero : r.choicesAt 0 = r.withoutContexts := by
  refine List.map_congr_left fun m _ => ?_
  rw [(MethodCosts.ofMethod_falling r m).choice_zero]
  rfl

theorem scalerChoices_eq : scalerChoices r budget = r.choicesAt (scalerThreshold r.methodCosts budget) := by
  simp only [scalerChoices, choicesAt, methodCosts, List.map_map]
  rfl

theorem eq_of_mem_choicesAt {t : Nat} {m : MethodId} {spec : ContextSpec} (chosen : (m, spec) ∈ r.choicesAt t) :
    m ∈ r.reachableMethods ∧ scalerVariants.idxOf spec = (MethodCosts.ofMethod r m).choice t := by
  obtain ⟨_, reached, same⟩ := List.mem_map.mp chosen
  cases same
  exact ⟨reached, idxOf_variant _ ((MethodCosts.ofMethod_falling r m).choice_lt t)⟩

/-- Choices for the reachable methods that make the most of a budget. -/
structure Spends (r : Result) (budget : Nat) (choices : List (MethodId × ContextSpec)) : Prop where
  methods : choices.map Prod.fst = r.reachableMethods
  within : r.bill r.withoutContexts ≤ budget → r.bill choices ≤ budget
  otherwise : budget < r.bill r.withoutContexts → choices = r.withoutContexts
  precise : ∀ t, r.bill (r.choicesAt t) ≤ budget → ∀ m chosen other, (m, chosen) ∈ choices →
    (m, other) ∈ r.choicesAt t → scalerVariants.idxOf chosen ≤ scalerVariants.idxOf other

theorem scalerChoices_spends : r.Spends budget (scalerChoices r budget) := by
  have falling := r.methodCosts_falling
  rw [scalerChoices_eq]
  refine ⟨?_, ?_, ?_, ?_⟩
  · rw [choicesAt, List.map_map]
    exact List.map_id' _
  · intro plain
    rcases scalerThreshold_fits falling budget with fits | zero
    · rwa [bill_choicesAt]
    · rwa [zero, choicesAt_zero]
  · intro exceeds
    rcases scalerThreshold_fits falling budget with fits | zero
    · -- what fits costs at least as much as no contexts at all
      rw [← choicesAt_zero, bill_choicesAt] at exceeds
      have least := totalCost_mono falling (Nat.zero_le (scalerThreshold r.methodCosts budget))
      omega
    · rw [zero, choicesAt_zero]
  · intro t fits m chosen other first second
    rw [bill_choicesAt] at fits
    obtain ⟨reached, here⟩ := eq_of_mem_choicesAt first
    rw [here, (eq_of_mem_choicesAt second).2]
    exact choice_scalerThreshold_le falling (List.mem_map_of_mem reached) fits

/-- The threshold can be found by bisection and makes the most of the budget. Costs fall from variant to
variant, so the bill rises with the threshold, and the candidates within the budget come first. -/
theorem scaler_optimal (r : Result) (budget : Nat) :
    (∀ m, (MethodCosts.ofMethod r m).Falling) ∧
    (∀ s t, s ≤ t → r.bill (r.choicesAt s) ≤ r.bill (r.choicesAt t)) ∧
    (∃ k, k ≤ (candidates r.methodCosts).length ∧
      PartsAt (fun t => decide (r.bill (r.choicesAt t) ≤ budget)) (candidates r.methodCosts) k) ∧
    (∀ k, k ≤ (candidates r.methodCosts).length →
      PartsAt (fun t => decide (r.bill (r.choicesAt t) ≤ budget)) (candidates r.methodCosts) k →
      scalerChoices r budget = r.choicesAt (thresholdAt r.methodCosts k)) ∧
    r.Spends budget (scalerChoices r budget) := by
  simp only [bill_choicesAt]
  refine ⟨MethodCosts.ofMethod_falling r, fun s t => totalCost_mono r.methodCosts_falling,
    candidates_parted r.methodCosts_falling budget, fun k inside parts => ?_, scalerChoices_spends⟩
  rw [scalerChoices_eq, scalerThreshold_eq parts, thresholdAt_eq inside]

end Result

end PointsTo
