import Mathlib.Data.List.SplitBy

/-! The words of a text. A word is a maximal run of elements of one kind; every other element
stands alone. Two images of a text, word by word, are equal when they agree on every word, as
long as images that differ do so at a common position. -/

namespace BigCodeAnalysis.Sequences

variable {α β : Type*} (p : α → Bool)

def IsWord (t : List α) : Prop := t ≠ [] ∧ ∀ x ∈ t, p x = true

/-- A word, or an element that belongs to none. -/
def IsToken (t : List α) : Prop := IsWord p t ∨ ∃ x, p x = false ∧ t = [x]

/-- The words of a text and the elements between them. -/
def tokens (text : List α) : List (List α) := text.splitBy fun x y => p x && p y

/-- Tokens no two words of which adjoin. -/
structure Separated (ts : List (List α)) : Prop where
  token : ∀ t ∈ ts, IsToken p t
  apart : ts.IsChain fun t u => ¬ (IsWord p t ∧ IsWord p u)

variable {p}

theorem IsToken.ne_nil {t : List α} (h : IsToken p t) : t ≠ [] := by
  rcases h with h | ⟨x, -, rfl⟩
  · exact h.1
  · exact List.cons_ne_nil _ _

theorem IsToken.isWord_of_mem {t : List α} (h : IsToken p t) {x : α} (hx : x ∈ t)
    (hp : p x = true) : IsWord p t := by
  rcases h with h | ⟨y, hy, rfl⟩
  · exact h
  · obtain rfl := List.mem_singleton.mp hx
    rw [hp] at hy
    cases hy

theorem IsToken.isChain {t : List α} (h : IsToken p t) :
    t.IsChain fun x y => (p x && p y) = true := by
  rcases h with ⟨-, h⟩ | ⟨x, -, rfl⟩
  · induction t with
    | nil => exact .nil
    | cons x t ih =>
      have hrest := ih fun y hy => h y (List.mem_cons_of_mem x hy)
      cases t with
      | nil => exact .singleton x
      | cons y t => exact .cons_cons (by simp [h]) hrest
  · exact .singleton x

theorem isToken_of_isChain {t : List α} (hne : t ≠ [])
    (h : t.IsChain fun x y => (p x && p y) = true) : IsToken p t := by
  induction t with
  | nil => exact absurd rfl hne
  | cons x t ih =>
    cases t with
    | nil =>
      cases hx : p x with
      | true => exact .inl ⟨hne, by simpa using hx⟩
      | false => exact .inr ⟨x, hx, rfl⟩
    | cons y t =>
      obtain ⟨hxy, hrest⟩ := List.isChain_cons_cons.mp h
      obtain ⟨hx, hy⟩ := Bool.and_eq_true_iff.mp hxy
      have hword := (ih (List.cons_ne_nil y t) hrest).isWord_of_mem List.mem_cons_self hy
      exact .inl ⟨hne, List.forall_mem_cons.mpr ⟨hx, hword.2⟩⟩

theorem not_both_iff {t u : List α} (ht : IsToken p t) (hu : IsToken p u) :
    (∃ ha hb, (p (t.getLast ha) && p (u.head hb)) = false) ↔ ¬ (IsWord p t ∧ IsWord p u) := by
  constructor
  · rintro ⟨ha, hb, hboth⟩ ⟨hwt, hwu⟩
    rw [hwt.2 _ (List.getLast_mem ha), hwu.2 _ (List.head_mem hb)] at hboth
    cases hboth
  · intro hnot
    refine ⟨ht.ne_nil, hu.ne_nil, Bool.eq_false_iff.mpr fun hboth => hnot ?_⟩
    obtain ⟨hlast, hhead⟩ := Bool.and_eq_true_iff.mp hboth
    exact ⟨ht.isWord_of_mem (List.getLast_mem _) hlast, hu.isWord_of_mem (List.head_mem _) hhead⟩

@[simp] theorem flatten_tokens (text : List α) : (tokens p text).flatten = text :=
  List.flatten_splitBy ..

theorem isToken_of_mem {text t : List α} (h : t ∈ tokens p text) : IsToken p t :=
  isToken_of_isChain (List.ne_nil_of_mem_splitBy h) (List.isChain_of_mem_splitBy h)

theorem separated_tokens (text : List α) : Separated p (tokens p text) := by
  refine ⟨fun t => isToken_of_mem, ?_⟩
  refine (List.isChain_getLast_head_splitBy _ text).imp_of_mem_imp fun t u ht hu h => ?_
  exact (not_both_iff (isToken_of_mem ht) (isToken_of_mem hu)).mp h

/-- Separated tokens are the tokens of their text. -/
theorem Separated.tokens_flatten {ts : List (List α)} (h : Separated p ts) :
    tokens p ts.flatten = ts := by
  refine List.splitBy_flatten (fun hnil => (h.token [] hnil).ne_nil rfl)
    (fun t ht => (h.token t ht).isChain) ?_
  refine h.apart.imp_of_mem_imp fun t u ht hu hnot => ?_
  exact (not_both_iff (h.token t ht) (h.token u hu)).mpr hnot

theorem tokens_append {l m : List α} (h : ∀ x ∈ l.getLast?, ∀ y ∈ m.head?, (p x && p y) = false) :
    tokens p (l ++ m) = tokens p l ++ tokens p m :=
  List.splitBy_append h

theorem tokens_word {w : List α} (h : IsWord p w) : tokens p w = [w] :=
  List.splitBy_of_isChain h.1 (IsToken.isChain (.inl h))

/-! ### Images that differ -/

/-- Two lists differ at a common position. -/
def Clash (xs ys : List β) : Prop :=
  ∃ lead x y xs' ys', x ≠ y ∧ xs = lead ++ x :: xs' ∧ ys = lead ++ y :: ys'

theorem Clash.ne {xs ys : List β} (h : Clash xs ys) : xs ≠ ys := by
  obtain ⟨lead, x, y, xs', ys', hne, rfl, rfl⟩ := h
  exact fun hsame => hne (List.cons_eq_cons.mp (List.append_cancel_left hsame)).1

theorem Clash.append_left {xs ys : List β} (h : Clash xs ys) (zs : List β) :
    Clash (zs ++ xs) (zs ++ ys) := by
  obtain ⟨lead, x, y, xs', ys', hne, rfl, rfl⟩ := h
  exact ⟨zs ++ lead, x, y, xs', ys', hne, by rw [List.append_assoc], by rw [List.append_assoc]⟩

theorem Clash.append_right {xs ys : List β} (h : Clash xs ys) (zs ws : List β) :
    Clash (xs ++ zs) (ys ++ ws) := by
  obtain ⟨lead, x, y, xs', ys', hne, rfl, rfl⟩ := h
  exact ⟨lead, x, y, xs' ++ zs, ys' ++ ws, hne, by simp, by simp⟩

/-- Images that are equal or clash element by element are equal or clash as a whole. -/
theorem flatMap_eq_or_clash {f g : α → List β} {l : List α}
    (h : ∀ a ∈ l, f a = g a ∨ Clash (f a) (g a)) :
    (∀ a ∈ l, f a = g a) ∧ l.flatMap f = l.flatMap g ∨
      (∃ a ∈ l, f a ≠ g a) ∧ Clash (l.flatMap f) (l.flatMap g) := by
  induction l with
  | nil => exact .inl ⟨nofun, rfl⟩
  | cons a l ih =>
    rw [List.flatMap_cons, List.flatMap_cons]
    rcases h a List.mem_cons_self with hsame | hclash
    · rcases ih fun b hb => h b (List.mem_cons_of_mem a hb) with ⟨hall, hl⟩ | ⟨⟨b, hb, hne⟩, hl⟩
      · exact .inl ⟨List.forall_mem_cons.mpr ⟨hsame, hall⟩, by rw [hsame, hl]⟩
      · exact .inr ⟨⟨b, List.mem_cons_of_mem a hb, hne⟩, hsame ▸ hl.append_left _⟩
    · exact .inr ⟨⟨a, List.mem_cons_self, hclash.ne⟩, hclash.append_right _ _⟩

theorem flatMap_eq_iff_of_clash {f g : α → List β} {l : List α}
    (h : ∀ a ∈ l, f a = g a ∨ Clash (f a) (g a)) :
    l.flatMap f = l.flatMap g ↔ ∀ a ∈ l, f a = g a := by
  rcases flatMap_eq_or_clash h with ⟨hall, hl⟩ | ⟨⟨a, ha, hne⟩, hl⟩
  · exact iff_of_true hl hall
  · exact iff_of_false hl.ne fun hall => hne (hall a ha)

end BigCodeAnalysis.Sequences
