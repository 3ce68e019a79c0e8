import Mathlib.Data.List.TakeWhile

/-! Runs in a list that are decided at their last element. A run of members counts if it opens
the list or follows the right element. Each element looks forward to see whether the run ends
with it, and only then backward to where the run starts; it then takes the whole run. -/

namespace BigCodeAnalysis.Sequences.Runs

variable {ι β : Type*}

/-- Each element's contribution, given what is before it, nearest first, and after it. -/
def inContext (f : List ι → ι → List ι → List β) : List ι → List ι → List β
  | _, [] => []
  | before, x :: after => f before x after ++ inContext f (x :: before) after

theorem mem_inContext {f : List ι → ι → List ι → List β} {b : β} {before rest : List ι} :
    b ∈ inContext f before rest ↔
      ∃ us x after, rest = us ++ x :: after ∧ b ∈ f (us.reverse ++ before) x after := by
  induction rest generalizing before with
  | nil => simp [inContext]
  | cons y rest ih =>
    rw [inContext, List.mem_append, ih]
    constructor
    · rintro (h | ⟨us, x, after, rfl, h⟩)
      · exact ⟨[], y, rest, rfl, h⟩
      · exact ⟨y :: us, x, after, rfl, by simpa using h⟩
    · rintro ⟨_ | ⟨u, us⟩, x, after, hsplit, h⟩
      · cases hsplit
        exact Or.inl h
      · cases hsplit
        exact Or.inr ⟨us, x, after, rfl, by simpa using h⟩

/-- A list taken element by element, where some elements neither contribute nor are seen. -/
theorem flatMap_eq_inContext {f : List ι → ι → List ι → List β} {g : ι → List β}
    {keep : ι → Bool} (l : List ι)
    (h : ∀ us x after, l = us ++ x :: after →
      g x = if keep x then f (us.filter keep).reverse x (after.filter keep) else []) :
    l.flatMap g = inContext f [] (l.filter keep) := by
  suffices hgen : ∀ rest us, l = us ++ rest →
      rest.flatMap g = inContext f (us.filter keep).reverse (rest.filter keep) from hgen l [] rfl
  intro rest
  induction rest with
  | nil =>
    intro us _
    rfl
  | cons x rest ih =>
    intro us hsplit
    have hx := h us x rest hsplit
    have hrest := ih (us ++ [x]) (by rw [hsplit, List.append_assoc, List.singleton_append])
    rw [List.flatMap_cons, hx, hrest]
    by_cases hkeep : keep x = true
    · simp [hkeep, inContext]
    · simp [hkeep]

section
variable (opens : Bool) (follows : ι → Bool)

/-- Whether the members just before, nearest first, open the list or follow the right
element. -/
def placed (member : ι → Bool) : List ι → Bool
  | [] => opens
  | x :: before => if member x then placed member before else follows x

theorem placed_false (member : ι → Bool) (before : List ι) :
    placed false (fun _ => false) member before = false := by
  induction before with
  | nil => rfl
  | cons x before ih =>
    rw [placed, ih]
    split <;> rfl

variable (str vis : ι → Bool)

/-- An element on its own: a string whose run, as far as it is seen, is placed. -/
def accepted (before : List ι) (x : ι) (_after : List ι) : List ι :=
  if str x && placed opens follows vis before then [x] else []

/-- What an element credits: nothing before the last of the run, there the whole run. -/
def members (before : List ι) (x : ι) (after : List ι) : List ι :=
  if after.head?.any vis then []
  else if str x && placed opens follows vis before then
    ((before.takeWhile vis).reverse ++ [x]).filter vis
  else []

variable {opens follows str vis}

theorem vis_of_mem_members {before after : List ι} {x y : ι}
    (h : y ∈ members opens follows str vis before x after) : vis y = true := by
  unfold members at h
  split at h
  · cases h
  · split at h
    · exact (List.mem_filter.mp h).2
    · cases h

/-- While every accepted element is seen, what is credited late is what is accepted: before
the last of a run its earlier members are still owed. -/
theorem inContext_members (hvis : ∀ x, vis x = true → str x = true) (before rest : List ι)
    (h : ∀ us x after, rest = us ++ x :: after → str x = true →
      placed opens follows vis (us.reverse ++ before) = true → vis x = true) :
    inContext (members opens follows str vis) before rest =
      (if rest.head?.any vis && placed opens follows vis before then
        (before.takeWhile vis).reverse else []) ++
      inContext (accepted opens follows str vis) before rest := by
  induction rest generalizing before with
  | nil => simp [inContext]
  | cons x rest ih =>
    have hrest := ih (x :: before) fun us y after hsplit hstr hplaced =>
      h (x :: us) y after (by rw [hsplit, List.cons_append]) hstr (by simpa using hplaced)
    rw [inContext, inContext, hrest, ← List.append_assoc, ← List.append_assoc]
    congr 1
    by_cases hx : vis x = true
    · have hstr := hvis x hx
      have hfilter : (before.takeWhile vis).filter vis = before.takeWhile vis :=
        List.filter_eq_self.mpr fun y hy => List.mem_takeWhile_imp hy
      cases hplaced : placed opens follows vis before <;> cases hnext : rest.head?.any vis <;>
        simp [members, accepted, placed, hx, hstr, hplaced, hnext, hfilter,
          List.filter_append, List.filter_reverse]
    · have hhidden : (str x && placed opens follows vis before) = false := by
        by_contra hne
        rw [Bool.not_eq_false, Bool.and_eq_true] at hne
        exact hx (h [] x rest rfl hne.1 (by simpa using hne.2))
      simp [members, accepted, hhidden, hx]

/-- What follows the right element as far as it is seen follows it in truth: the right
element is no string. -/
theorem placed_of_placed_vis (hvis : ∀ x, vis x = true → str x = true)
    (hfollows : ∀ x, follows x = true → str x = false) {before : List ι}
    (h : placed opens follows vis before = true) : placed opens follows str before = true := by
  induction before with
  | nil => exact h
  | cons x before ih =>
    rw [placed] at h ⊢
    by_cases hx : vis x = true
    · rw [if_pos hx] at h
      rw [if_pos (hvis x hx)]
      exact ih h
    · rw [if_neg hx] at h
      rw [hfollows x h, if_neg Bool.false_ne_true]
      exact h

/-- Runs whose members are all seen start where they seem to. -/
theorem placed_vis_of_placed (hvis : ∀ x, vis x = true → str x = true) {before : List ι}
    (hseen : ∀ us x earlier, before = us ++ x :: earlier → str x = true →
      placed opens follows str earlier = true → vis x = true)
    (h : placed opens follows str before = true) : placed opens follows vis before = true := by
  induction before with
  | nil => exact h
  | cons x before ih =>
    rw [placed] at h ⊢
    by_cases hx : str x = true
    · rw [if_pos hx] at h
      rw [if_pos (hseen [] x before rfl hx h)]
      exact ih (fun us y earlier hsplit => hseen (x :: us) y earlier
        (by rw [hsplit, List.cons_append])) h
    · rw [if_neg hx] at h
      rw [if_neg fun hv => hx (hvis x hv)]
      exact h

/-- What is credited is what is accepted, and that is every member of a placed run, exactly if
every member of a placed run is seen. -/
theorem credited_iff (hvis : ∀ x, vis x = true → str x = true)
    (hfollows : ∀ x, follows x = true → str x = false) (l : List ι) :
    (inContext (members opens follows str vis) [] l =
        inContext (accepted opens follows str vis) [] l ∧
      ∀ us x after, l = us ++ x :: after → str x = true →
        (placed opens follows vis us.reverse = true ↔ placed opens follows str us.reverse = true)) ↔
    ∀ us x after, l = us ++ x :: after → str x = true →
      placed opens follows str us.reverse = true → vis x = true := by
  constructor
  · rintro ⟨heq, hplaced⟩ us x after hsplit hstr hx
    have hvisPlaced := (hplaced us x after hsplit hstr).mpr hx
    have hmem : x ∈ inContext (accepted opens follows str vis) [] l :=
      mem_inContext.mpr ⟨us, x, after, hsplit, by simp [accepted, hstr, hvisPlaced]⟩
    rw [← heq] at hmem
    obtain ⟨vs, y, later, -, hy⟩ := mem_inContext.mp hmem
    exact vis_of_mem_members hy
  · intro h
    have hback : ∀ us x after, l = us ++ x :: after →
        placed opens follows str us.reverse = true → placed opens follows vis us.reverse = true := by
      intro us x after hsplit hx
      refine placed_vis_of_placed hvis (fun vs y earlier hvs hy hearlier => ?_) hx
      have hus : us = earlier.reverse ++ y :: vs.reverse := by
        rw [← List.reverse_reverse us, hvs]
        simp
      refine h earlier.reverse y (vs.reverse ++ x :: after) ?_ hy (by simpa using hearlier)
      rw [hsplit, hus]
      simp
    refine ⟨?_, fun us x after hsplit _ => ⟨placed_of_placed_vis hvis hfollows, hback us x after hsplit⟩⟩
    have hall := inContext_members hvis [] l fun us x after hsplit hstr hplaced =>
      h us x after hsplit hstr (placed_of_placed_vis hvis hfollows (by simpa using hplaced))
    simpa using hall

/-! ### Gaps -/

variable {gap : ι → Bool}

theorem placed_filter_of_placed (hgap : ∀ x, gap x = true → str x = false ∧ follows x = false)
    {before : List ι} (h : placed opens follows str before = true) :
    placed opens follows str (before.filter fun x => !gap x) = true := by
  induction before with
  | nil => exact h
  | cons x before ih =>
    rw [placed] at h
    by_cases hx : gap x = true
    · rw [(hgap x hx).1, (hgap x hx).2, if_neg Bool.false_ne_true] at h
      cases h
    · rw [List.filter_cons_of_pos (by simpa using hx), placed]
      by_cases hstr : str x = true
      · rw [if_pos hstr] at h ⊢
        exact ih h
      · rw [if_neg hstr] at h ⊢
        exact h

/-- Nothing is lost where no member of a placed run has a gap just before it. -/
theorem placed_of_placed_filter {before : List ι} (hhead : before.head?.any gap = false)
    (hnone : ∀ us x earlier, before = us ++ x :: earlier → str x = true →
      placed opens follows str (earlier.filter fun y => !gap y) = true →
      earlier.head?.any gap = false)
    (h : placed opens follows str (before.filter fun x => !gap x) = true) :
    placed opens follows str before = true := by
  induction before with
  | nil => exact h
  | cons x before ih =>
    have hx : gap x = false := by simpa using hhead
    rw [List.filter_cons_of_pos (by simpa using hx), placed] at h
    rw [placed]
    by_cases hstr : str x = true
    · rw [if_pos hstr] at h ⊢
      refine ih (hnone [] x before rfl hstr h) (fun us y earlier hsplit => ?_) h
      exact hnone (x :: us) y earlier (by rw [hsplit, List.cons_append])
    · rw [if_neg hstr] at h ⊢
      exact h

/-- Where a run goes on over gaps, but a gap ends it as it is seen, what is credited is every
member of a placed run exactly if no member hides and none has a gap just before it. -/
theorem credited_over_gaps_iff (hvis : ∀ x, vis x = true → str x = true)
    (hfollows : ∀ x, follows x = true → str x = false)
    (hgap : ∀ x, gap x = true → str x = false ∧ follows x = false) (l : List ι) :
    (inContext (members opens follows str vis) [] l =
        inContext (accepted opens follows str vis) [] l ∧
      ∀ us x after, l = us ++ x :: after → str x = true →
        (placed opens follows vis us.reverse = true ↔
          placed opens follows str (us.reverse.filter fun y => !gap y) = true)) ↔
    ∀ us x after, l = us ++ x :: after → str x = true →
      placed opens follows str (us.reverse.filter fun y => !gap y) = true →
      vis x = true ∧ us.reverse.head?.any gap = false := by
  constructor
  · rintro ⟨heq, hplaced⟩
    have hiff : ∀ us x after, l = us ++ x :: after → str x = true →
        (placed opens follows vis us.reverse = true ↔
          placed opens follows str us.reverse = true) := by
      refine fun us x after hsplit hstr => ⟨placed_of_placed_vis hvis hfollows, fun hx => ?_⟩
      exact (hplaced us x after hsplit hstr).mpr (placed_filter_of_placed hgap hx)
    intro us x after hsplit hstr hx
    have hvisPlaced := (hplaced us x after hsplit hstr).mpr hx
    refine ⟨(credited_iff hvis hfollows l).mp ⟨heq, hiff⟩ us x after hsplit hstr
      (placed_of_placed_vis hvis hfollows hvisPlaced), ?_⟩
    cases hbefore : us.reverse with
    | nil => rfl
    | cons y earlier =>
      rw [hbefore, placed] at hvisPlaced
      by_contra hy
      have hy : gap y = true := by simpa using hy
      have hhidden : ¬ vis y = true := fun hseen =>
        absurd (hvis y hseen) (by rw [(hgap y hy).1]; exact Bool.false_ne_true)
      rw [if_neg hhidden, (hgap y hy).2] at hvisPlaced
      cases hvisPlaced
  · intro h
    have hback : ∀ us x after, l = us ++ x :: after → str x = true →
        (placed opens follows str us.reverse = true ↔
          placed opens follows str (us.reverse.filter fun y => !gap y) = true) := by
      refine fun us x after hsplit hstr => ⟨placed_filter_of_placed hgap, fun hx => ?_⟩
      refine placed_of_placed_filter (h us x after hsplit hstr hx).2 (fun vs y earlier hvs hy he => ?_) hx
      have hus : us = earlier.reverse ++ y :: vs.reverse := by
        rw [← List.reverse_reverse us, hvs]
        simp
      have hy' := (h earlier.reverse y (vs.reverse ++ x :: after) (by rw [hsplit, hus]; simp) hy
        (by simpa using he)).2
      simpa using hy'
    obtain ⟨heq, hiff⟩ := (credited_iff hvis hfollows l).mpr fun us x after hsplit hstr hx =>
      (h us x after hsplit hstr ((hback us x after hsplit hstr).mp hx)).1
    exact ⟨heq, fun us x after hsplit hstr =>
      (hiff us x after hsplit hstr).trans (hback us x after hsplit hstr)⟩

end

end BigCodeAnalysis.Sequences.Runs
