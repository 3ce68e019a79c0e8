import BigCodeAnalysis.Baseline.Encoders
import BigCodeAnalysis.Baseline.PathKey

/-! The key of a path tells files apart. The anchor is the directory of the baseline, so it is
absolute, or empty. A path put together from components is first read back into these
components, and folding `.` and `..` is shown to settle at once; the key of a path is then that
of its folded form, and the names encoded in a key are found again in it. A name that begins
with a backslash is where two files meet. -/

namespace BigCodeAnalysis.Baseline

/-! ### Names -/

/-- What a component other than the root and a leading dot looks like. -/
def WellNamed : Component → Prop
  | .normal name => name ≠ [] ∧ slash ∉ name ∧ name ≠ dot ∧ name ≠ dotdot
  | .parentDir => True
  | _ => False

theorem ofName_text {c : Component} (h : WellNamed c) : Component.ofName c.text = some c := by
  cases c with
  | rootDir => exact h.elim
  | curDir => exact h.elim
  | parentDir => rfl
  | normal name => simp [Component.ofName, Component.text, h.2.2.1, h.2.2.2]

theorem text_ne_nil {c : Component} (h : WellNamed c) : c.text ≠ [] := by
  cases c with
  | rootDir => exact h.elim
  | curDir => exact h.elim
  | parentDir => simp [Component.text, dotdot]
  | normal name => exact h.1

theorem slash_notMem_text {c : Component} (h : WellNamed c) : slash ∉ c.text := by
  cases c with
  | rootDir => exact h.elim
  | curDir => exact h.elim
  | parentDir => decide
  | normal name => exact h.2.1

theorem text_ne_dot {c : Component} (h : WellNamed c) : c.text ≠ dot := by
  cases c with
  | rootDir => exact h.elim
  | curDir => exact h.elim
  | parentDir => decide
  | normal name => exact h.2.2.1

theorem wellNamed_of_ofName {name : PathBytes} {c : Component} (hne : name ≠ [])
    (hslash : slash ∉ name) (h : Component.ofName name = some c) : WellNamed c := by
  unfold Component.ofName at h
  split_ifs at h with hdot hdotdot
  · cases h
    trivial
  · cases h
    exact ⟨hne, hslash, hdot, hdotdot⟩

/-! ### Reading back -/

/-- The names joined by separators are read back. -/
theorem names_intercalate {cs : List Component} (h : ∀ c ∈ cs, WellNamed c) :
    names ([slash].intercalate (cs.map Component.text)) = cs.map Component.text := by
  rcases cs with _ | ⟨c, cs⟩
  · rfl
  · rw [names, List.splitOn_intercalate slash, List.filter_eq_self]
    · intro name hname
      obtain ⟨c, hc, rfl⟩ := List.mem_map.mp hname
      exact decide_eq_true (text_ne_nil (h c hc))
    · intro name hname
      obtain ⟨c, hc, rfl⟩ := List.mem_map.mp hname
      exact slash_notMem_text (h c hc)
    · exact List.cons_ne_nil _ _

theorem filterMap_ofName {cs : List Component} (h : ∀ c ∈ cs, WellNamed c) :
    (cs.map Component.text).filterMap Component.ofName = cs := by
  rw [List.filterMap_map]
  induction cs with
  | nil => rfl
  | cons c cs ih =>
    rw [List.filterMap_cons, Function.comp, ofName_text (h c (List.mem_cons_self ..))]
    exact congrArg (c :: ·) (ih fun c hc => h c (List.mem_cons_of_mem _ hc))

theorem head_intercalate {cs : List Component} (h : ∀ c ∈ cs, WellNamed c) :
    ([slash].intercalate (cs.map Component.text)).head? ≠ some slash := by
  rcases cs with _ | ⟨c, cs⟩
  · simp
  · have hc := h c (List.mem_cons_self ..)
    obtain ⟨b, text, htext⟩ := List.exists_cons_of_ne_nil (text_ne_nil hc)
    have hb : b ≠ slash := by
      rintro rfl
      exact slash_notMem_text hc (htext ▸ List.mem_cons_self ..)
    rcases cs with _ | ⟨c', cs⟩
    · simp [htext, hb]
    · simp [List.intercalate_cons_cons, htext, hb]

theorem render_of_wellNamed {cs : List Component} (h : ∀ c ∈ cs, WellNamed c) :
    render cs = [slash].intercalate (cs.map Component.text) := by
  rcases cs with _ | ⟨c, cs⟩
  · rfl
  · have hc := h c (List.mem_cons_self ..)
    cases c with
    | rootDir => exact hc.elim
    | curDir => exact hc.elim
    | parentDir => rfl
    | normal name => rfl

theorem isAbsolute_render {cs : List Component} (h : ∀ c ∈ cs, WellNamed c) :
    isAbsolute (render cs) = false := by
  rw [render_of_wellNamed h]
  exact decide_eq_false (head_intercalate h)

theorem components_render {cs : List Component} (h : ∀ c ∈ cs, WellNamed c) :
    components (render cs) = cs := by
  have hdot : (cs.map Component.text).head? ≠ some dot := by
    rcases cs with _ | ⟨c, cs⟩
    · simp
    · exact fun heq => text_ne_dot (h c (List.mem_cons_self ..)) (Option.some.inj heq)
  rw [components, isAbsolute_render h, render_of_wellNamed h, names_intercalate h,
    filterMap_ofName h, if_neg Bool.false_ne_true, if_neg hdot, List.nil_append]

theorem names_slash (p : PathBytes) : names (slash :: p) = names p := by
  have hsplit : (slash :: p).splitOn slash = [] :: p.splitOn slash :=
    List.splitOn_append_cons_self [] p
  rw [names, hsplit, List.filter_cons_of_neg (by simp), names]

theorem components_render_root {cs : List Component} (h : ∀ c ∈ cs, WellNamed c) :
    components (render (.rootDir :: cs)) = .rootDir :: cs := by
  have habsolute : isAbsolute (render (.rootDir :: cs)) = true := by simp [render, isAbsolute]
  rw [components, habsolute, render, names_slash, names_intercalate h, filterMap_ofName h]
  rfl

/-! ### The components of any path -/

theorem slash_notMem_of_mem_splitOn {p name : PathBytes} (h : name ∈ p.splitOn slash) :
    slash ∉ name := by
  induction p generalizing name with
  | nil =>
    obtain rfl := List.mem_singleton.mp h
    exact List.not_mem_nil
  | cons b p ih =>
    rw [List.splitOn_cons_eq_if_modifyHead] at h
    split_ifs at h with hb
    · rcases List.mem_cons.mp h with rfl | h
      · exact List.not_mem_nil
      · exact ih h
    · rcases hsplit : p.splitOn slash with _ | ⟨first, rest⟩
      · exact absurd hsplit (List.splitOn_ne_nil slash p)
      · rw [hsplit] at h ih
        rcases List.mem_cons.mp h with rfl | h
        · intro hmem
          rcases List.mem_cons.mp hmem with rfl | hmem
          · simp at hb
          · exact ih (List.mem_cons_self ..) hmem
        · exact ih (List.mem_cons_of_mem _ h)

theorem wellNamed_of_mem {p : PathBytes} {c : Component}
    (h : c ∈ (names p).filterMap Component.ofName) : WellNamed c := by
  obtain ⟨name, hname, hc⟩ := List.mem_filterMap.mp h
  obtain ⟨hsplit, hne⟩ := List.mem_filter.mp hname
  exact wellNamed_of_ofName (of_decide_eq_true hne) (slash_notMem_of_mem_splitOn hsplit) hc

/-! ### Folding -/

/-- The components that folding gives: a root or some `..`, and then names. -/
inductive Folded : List Component → Prop where
  | rooted {ns : List PathBytes} (h : ∀ n ∈ ns, WellNamed (.normal n)) : Folded (.rootDir :: ns.map .normal)
  | relative {ns : List PathBytes} (k : ℕ) (h : ∀ n ∈ ns, WellNamed (.normal n)) :
    Folded (List.replicate k .parentDir ++ ns.map .normal)

theorem Folded.push_normal {out : List Component} (h : Folded out) {n : PathBytes}
    (hn : WellNamed (.normal n)) : Folded (out ++ [.normal n]) := by
  cases h with
  | @rooted ns hns =>
    have hall : ∀ m ∈ ns ++ [n], WellNamed (.normal m) := by
      rintro m hm
      rcases List.mem_append.mp hm with hm | hm
      · exact hns m hm
      · exact List.mem_singleton.mp hm ▸ hn
    simpa using Folded.rooted hall
  | @relative ns k hns =>
    have hall : ∀ m ∈ ns ++ [n], WellNamed (.normal m) := by
      rintro m hm
      rcases List.mem_append.mp hm with hm | hm
      · exact hns m hm
      · exact List.mem_singleton.mp hm ▸ hn
    simpa using Folded.relative k hall

theorem normalizeStep_pop (out : List Component) (n : PathBytes) :
    normalizeStep (out ++ [.normal n]) .parentDir = out := by
  simp [normalizeStep, List.getLast?_append]

theorem normalizeStep_parents (k : ℕ) :
    normalizeStep (List.replicate k .parentDir) .parentDir = List.replicate (k + 1) .parentDir := by
  rw [List.replicate_succ']
  cases k <;> simp [normalizeStep, push, List.getLast?_replicate]

/-- What `..` does: a name goes, a root stays, and otherwise the `..` is kept. -/
theorem Folded.step_parentDir {out : List Component} (h : Folded out) :
    Folded (normalizeStep out .parentDir) := by
  cases h with
  | @rooted ns hns =>
    rcases List.eq_nil_or_concat ns with rfl | ⟨ns, n, rfl⟩
    · exact .rooted hns
    · rw [List.concat_eq_append, List.map_append, List.map_singleton, ← List.cons_append,
        normalizeStep_pop]
      exact .rooted fun m hm => hns m (by simp [hm])
  | @relative ns k hns =>
    rcases List.eq_nil_or_concat ns with rfl | ⟨ns, n, rfl⟩
    · have hmore := Folded.relative (k + 1) hns
      rw [List.map_nil, List.append_nil] at hmore ⊢
      rwa [normalizeStep_parents]
    · rw [List.concat_eq_append, List.map_append, List.map_singleton, ← List.append_assoc,
        normalizeStep_pop]
      exact .relative k fun m hm => hns m (by simp [hm])

theorem Folded.foldl {out cs : List Component} (h : Folded out) (hcs : ∀ c ∈ cs, WellNamed c) :
    Folded (cs.foldl normalizeStep out) := by
  induction cs generalizing out with
  | nil => exact h
  | cons c cs ih =>
    have hc := hcs c (List.mem_cons_self ..)
    have hrest := fun d hd => hcs d (List.mem_cons_of_mem c hd)
    cases c with
    | rootDir => exact hc.elim
    | curDir => exact hc.elim
    | parentDir => exact ih h.step_parentDir hrest
    | normal n => exact ih (h.push_normal hc) hrest

theorem folded_normalizeComponents (p : PathBytes) : Folded (normalizeComponents (components p)) := by
  have hrest : ∀ c ∈ (names p).filterMap Component.ofName, WellNamed c := fun c => wellNamed_of_mem
  have hnone : ∀ n ∈ ([] : List PathBytes), WellNamed (.normal n) := by simp
  have hnil : Folded [] := Folded.relative 0 hnone
  have hroot : Folded [.rootDir] := Folded.rooted hnone
  rw [normalizeComponents, components, List.foldl_append]
  split_ifs
  · exact hroot.foldl hrest
  · exact hnil.foldl hrest
  · exact hnil.foldl hrest

theorem Folded.components_render {cs : List Component} (h : Folded cs) :
    components (render cs) = cs := by
  cases h with
  | @rooted ns hns => exact components_render_root (by simpa using hns)
  | @relative ns k hns =>
    apply Baseline.components_render
    intro c hc
    rcases List.mem_append.mp hc with hc | hc
    · rw [List.eq_of_mem_replicate hc]
      trivial
    · obtain ⟨n, hn, rfl⟩ := List.mem_map.mp hc
      exact hns n hn

theorem foldl_normal (ns : List PathBytes) (out : List Component) :
    (ns.map .normal).foldl normalizeStep out = out ++ ns.map .normal := by
  induction ns generalizing out with
  | nil => exact (List.append_nil out).symm
  | cons n ns ih => simp [normalizeStep, push, ih]

theorem foldl_parentDir (k j : ℕ) :
    (List.replicate k .parentDir).foldl normalizeStep (List.replicate j .parentDir) =
      List.replicate (j + k) .parentDir := by
  induction k generalizing j with
  | zero => rfl
  | succ k ih =>
    rw [List.replicate_succ, List.foldl_cons, normalizeStep_parents, ih]
    congr 1
    omega

theorem Folded.normalizeComponents_eq {cs : List Component} (h : Folded cs) :
    normalizeComponents cs = cs := by
  cases h with
  | rooted =>
    rw [normalizeComponents, List.foldl_cons, foldl_normal]
    rfl
  | relative k =>
    have hparents := foldl_parentDir k 0
    rw [List.replicate_zero, Nat.zero_add] at hparents
    rw [normalizeComponents, List.foldl_append, hparents, foldl_normal]

theorem lexicalNormalize_idem (p : PathBytes) :
    lexicalNormalize (lexicalNormalize p) = lexicalNormalize p := by
  have hfolded := folded_normalizeComponents p
  rw [lexicalNormalize, lexicalNormalize, hfolded.components_render, hfolded.normalizeComponents_eq]

/-! ### The folded path and its key -/

/-- The path made absolute and folded. -/
def resolve (anchor p : PathBytes) : PathBytes :=
  if isAbsolute p ∨ anchor = [] then lexicalNormalize p else lexicalNormalize (join anchor p)

/-- What is encoded: the path beneath the anchor, or all of it. -/
def keyPath (anchor p : PathBytes) : PathBytes :=
  (stripPrefix (resolve anchor p) anchor).getD (resolve anchor p)

def Under (anchor p : PathBytes) : Prop := components anchor <+: components (resolve anchor p)

theorem normalizePath_eq (anchor p : PathBytes) :
    normalizePath anchor p = String.ofList (encodeOsPath (keyPath anchor p)) :=
  rfl

theorem normalizePath_inj {anchor p q : PathBytes} :
    normalizePath anchor p = normalizePath anchor q ↔
      (keyPath anchor p).map fold = (keyPath anchor q).map fold := by
  rw [normalizePath_eq, normalizePath_eq, String.ofList_inj, encodeOsPath_inj]

/-! ### Anchors -/

theorem isAbsolute_join {anchor : PathBytes} (h : isAbsolute anchor = true) (p : PathBytes) :
    isAbsolute (join anchor p) = true := by
  obtain ⟨rest, rfl⟩ : ∃ rest, anchor = slash :: rest := by
    cases anchor with
    | nil => exact absurd h (by decide)
    | cons b rest =>
      obtain rfl := Option.some.inj (of_decide_eq_true h)
      exact ⟨rest, rfl⟩
  unfold join
  by_cases hp : isAbsolute p = true
  · rw [if_pos hp]
    exact hp
  · rw [if_neg hp, if_neg (List.cons_ne_nil _ _)]
    split_ifs <;> simp [isAbsolute]

theorem normalizePath_join {anchor rel : PathBytes} (hanchor : isAbsolute anchor = true ∨ anchor = [])
    (hrel : isAbsolute rel = false) :
    normalizePath anchor (join anchor rel) = normalizePath anchor rel := by
  have hresolve : resolve anchor (join anchor rel) = resolve anchor rel := by
    rcases hanchor with habs | rfl
    · have hne : anchor ≠ [] := by
        rintro rfl
        exact absurd habs (by decide)
      have hnot : ¬ (isAbsolute rel = true ∨ anchor = []) := by simp [hrel, hne]
      rw [resolve, resolve, if_pos (.inl (isAbsolute_join habs rel)), if_neg hnot]
    · simp [resolve, join, hrel]
  rw [normalizePath_eq, normalizePath_eq, keyPath, keyPath, hresolve]

/-! ### The parts of a resolved path -/

theorem rooted_foldl {cs : List Component} (hcs : ∀ c ∈ cs, WellNamed c) (ns : List PathBytes)
    (hns : ∀ n ∈ ns, WellNamed (.normal n)) :
    ∃ ns' : List PathBytes, (∀ n ∈ ns', WellNamed (.normal n)) ∧
      cs.foldl normalizeStep (.rootDir :: ns.map .normal) = .rootDir :: ns'.map .normal := by
  induction cs generalizing ns with
  | nil => exact ⟨ns, hns, rfl⟩
  | cons c cs ih =>
    have hc := hcs c (List.mem_cons_self ..)
    have hrest := fun d hd => hcs d (List.mem_cons_of_mem c hd)
    cases c with
    | rootDir => exact hc.elim
    | curDir => exact hc.elim
    | normal n =>
      obtain ⟨ns', hns', heq⟩ := ih hrest (ns ++ [n]) (by
        intro m hm
        rcases List.mem_append.mp hm with hm | hm
        · exact hns m hm
        · exact List.mem_singleton.mp hm ▸ hc)
      refine ⟨ns', hns', ?_⟩
      rw [← heq, List.map_append]
      rfl
    | parentDir =>
      rcases List.eq_nil_or_concat ns with rfl | ⟨ns, n, rfl⟩
      · exact ih hrest [] hns
      · obtain ⟨ns', hns', heq⟩ := ih hrest ns fun m hm => hns m (by simp [hm])
        refine ⟨ns', hns', ?_⟩
        rw [List.foldl_cons, List.concat_eq_append, List.map_append, List.map_singleton,
          ← List.cons_append, normalizeStep_pop, heq]

theorem normalize_absolute {p : PathBytes} (h : isAbsolute p = true) :
    ∃ ns : List PathBytes, (∀ n ∈ ns, WellNamed (.normal n)) ∧
      lexicalNormalize p = render (.rootDir :: ns.map .normal) := by
  have hnone : ∀ n ∈ ([] : List PathBytes), WellNamed (.normal n) := by simp
  obtain ⟨ns, hns, heq⟩ := rooted_foldl (fun c => wellNamed_of_mem (p := p) (c := c)) [] hnone
  refine ⟨ns, hns, ?_⟩
  rw [lexicalNormalize, normalizeComponents, components, if_pos h, ← heq]
  rfl

/-- With an absolute anchor a resolved path is a root and names. -/
theorem resolve_absolute {anchor : PathBytes} (hanchor : isAbsolute anchor = true) (p : PathBytes) :
    ∃ ns : List PathBytes, (∀ n ∈ ns, WellNamed (.normal n)) ∧
      resolve anchor p = render (.rootDir :: ns.map .normal) := by
  unfold resolve
  split_ifs with h
  · rcases h with h | rfl
    · exact normalize_absolute h
    · exact absurd hanchor (by decide)
  · exact normalize_absolute (isAbsolute_join hanchor p)

theorem components_absolute {anchor : PathBytes} (h : isAbsolute anchor = true) :
    ∃ as : List Component, (∀ c ∈ as, WellNamed c) ∧ components anchor = .rootDir :: as :=
  ⟨_, fun _ => wellNamed_of_mem, by rw [components, if_pos h]; rfl⟩

/-! ### Stripping the anchor -/

theorem intercalate_cons (x : PathBytes) (xs : List PathBytes) :
    [slash].intercalate (x :: xs) = x ++ if xs = [] then [] else slash :: [slash].intercalate xs := by
  cases xs with
  | nil => simp
  | cons y ys => simp [List.intercalate_cons_cons]

theorem intercalate_eq_nil {cs : List Component} (h : ∀ c ∈ cs, WellNamed c) :
    [slash].intercalate (cs.map Component.text) = [] ↔ cs = [] := by
  cases cs with
  | nil => simp
  | cons c cs =>
    have hc := text_ne_nil (h c (List.mem_cons_self ..))
    simp [intercalate_cons, hc]

/-- Names put in front keep two texts equal up to separators. -/
theorem fold_intercalate_append (as : List Component) {cs cs' : List Component}
    (hcs : ∀ c ∈ cs, WellNamed c) (hcs' : ∀ c ∈ cs', WellNamed c)
    (h : ([slash].intercalate (cs.map Component.text)).map fold =
      ([slash].intercalate (cs'.map Component.text)).map fold) :
    ([slash].intercalate ((as ++ cs).map Component.text)).map fold =
      ([slash].intercalate ((as ++ cs').map Component.text)).map fold := by
  have hnil : cs = [] ↔ cs' = [] := by
    rw [← intercalate_eq_nil hcs, ← intercalate_eq_nil hcs', ← List.map_eq_nil_iff (f := fold), h,
      List.map_eq_nil_iff]
  induction as with
  | nil => exact h
  | cons a as ih =>
    have hboth : (as ++ cs).map Component.text = [] ↔ (as ++ cs').map Component.text = [] := by
      simp [hnil]
    rw [List.cons_append, List.cons_append, List.map_cons, List.map_cons, intercalate_cons,
      intercalate_cons]
    by_cases hempty : (as ++ cs).map Component.text = []
    · rw [if_pos hempty, if_pos (hboth.mp hempty)]
    · rw [if_neg hempty, if_neg (mt hboth.mpr hempty), List.map_append, List.map_cons, ih,
        ← List.map_cons, ← List.map_append]

/-- Beneath an absolute anchor the key path is the rest of the names. -/
theorem keyPath_of_under {anchor p : PathBytes} {as : List Component}
    (hanchor : isAbsolute anchor = true) (has : components anchor = .rootDir :: as)
    (h : Under anchor p) : ∃ rest : List Component, (∀ c ∈ rest, WellNamed c) ∧
      keyPath anchor p = [slash].intercalate (rest.map Component.text) ∧
      resolve anchor p = slash :: [slash].intercalate ((as ++ rest).map Component.text) := by
  obtain ⟨ns, hns, hresolve⟩ := resolve_absolute hanchor p
  have hcomponents : components (resolve anchor p) = .rootDir :: ns.map .normal := by
    rw [hresolve]
    exact (Folded.rooted hns).components_render
  obtain ⟨rest, hrest⟩ := h
  rw [hcomponents, has, List.cons_append] at hrest
  have hnames := (List.cons.inj hrest).2
  have hwell : ∀ c ∈ rest, WellNamed c := by
    intro c hc
    have hmem : c ∈ ns.map .normal := hnames ▸ List.mem_append_right as hc
    obtain ⟨n, hn, rfl⟩ := List.mem_map.mp hmem
    exact hns n hn
  refine ⟨rest, hwell, ?_, ?_⟩
  · have hstart : components anchor <+: components (resolve anchor p) := by
      rw [hcomponents, has, ← hnames, ← List.cons_append]
      exact List.prefix_append _ _
    rw [keyPath, stripPrefix, if_pos hstart, Option.getD_some, hcomponents, has, ← hnames,
      ← List.cons_append, List.drop_left, render_of_wellNamed hwell]
  · rw [hresolve, ← hnames]
    rfl

theorem keyPath_of_not_under {anchor p : PathBytes} (h : ¬ Under anchor p) :
    keyPath anchor p = resolve anchor p := by
  have hnot : ¬ components anchor <+: components (resolve anchor p) := h
  rw [keyPath, stripPrefix, if_neg hnot]
  rfl

theorem keyPath_empty (p : PathBytes) : keyPath [] p = resolve [] p := by
  have hfolded : components (resolve [] p) = normalizeComponents (components p) := by
    rw [resolve, if_pos (.inr rfl), lexicalNormalize]
    exact (folded_normalizeComponents p).components_render
  have hstart : components [] <+: components (resolve [] p) := List.nil_prefix
  rw [keyPath, stripPrefix, if_pos hstart, Option.getD_some]
  show render ((components (resolve [] p)).drop 0) = resolve [] p
  rw [List.drop_zero, hfolded, resolve, if_pos (.inr rfl)]
  rfl

/-! ### Same key -/

/-- A path outside the anchor has the key of a path beneath it only when a separator was
written as a backslash at the very beginning. -/
theorem backslash_of_mixed {anchor p q : PathBytes} (hanchor : isAbsolute anchor = true)
    (hp : Under anchor p) (hq : ¬ Under anchor q)
    (h : (keyPath anchor p).map fold = (keyPath anchor q).map fold) :
    (keyPath anchor p).head? = some backslash := by
  obtain ⟨as, -, has⟩ := components_absolute hanchor
  obtain ⟨rest, hrest, hkey, -⟩ := keyPath_of_under hanchor has hp
  obtain ⟨ns, -, hresolve⟩ := resolve_absolute hanchor q
  have hslash : (keyPath anchor q).head? = some slash := by
    rw [keyPath_of_not_under hq, hresolve]
    rfl
  have hhead := congrArg List.head? h
  rw [List.head?_map, List.head?_map, hslash] at hhead
  obtain ⟨b, hb, hfold⟩ := Option.map_eq_some_iff.mp hhead
  have hne : b ≠ slash := by
    rintro rfl
    rw [hkey] at hb
    exact head_intercalate hrest hb
  have hbackslash : b = backslash := by
    by_contra hnot
    rw [fold, if_neg hnot] at hfold
    exact hne hfold
  rw [hb, hbackslash]

theorem resolve_of_same {anchor p q : PathBytes} (hanchor : isAbsolute anchor = true ∨ anchor = [])
    (hunder : Under anchor p ↔ Under anchor q)
    (h : (keyPath anchor p).map fold = (keyPath anchor q).map fold) :
    (resolve anchor p).map fold = (resolve anchor q).map fold := by
  rcases hanchor with habs | rfl
  · by_cases hp : Under anchor p
    · obtain ⟨as, -, has⟩ := components_absolute habs
      obtain ⟨rest, hrest, hkey, hresolve⟩ := keyPath_of_under habs has hp
      obtain ⟨rest', hrest', hkey', hresolve'⟩ := keyPath_of_under habs has (hunder.mp hp)
      rw [hkey, hkey'] at h
      rw [hresolve, hresolve', List.map_cons, List.map_cons,
        fold_intercalate_append as hrest hrest' h]
    · rwa [keyPath_of_not_under hp, keyPath_of_not_under (mt hunder.mpr hp)] at h
  · rwa [keyPath_empty, keyPath_empty] at h

theorem isUtf8_of_same {anchor p q : PathBytes}
    (h : (keyPath anchor p).map fold = (keyPath anchor q).map fold) :
    isUtf8 (keyPath anchor p) = isUtf8 (keyPath anchor q) := by
  rw [← isUtf8_map_fold, h, isUtf8_map_fold]

/-- Folding twice is folding once, joining the anchor changes no key, and one key means one
path up to separators, with the wide encoder as well. -/
theorem pathKey_laws :
    (∀ p, lexicalNormalize (lexicalNormalize p) = lexicalNormalize p) ∧
    (∀ anchor rel, isAbsolute anchor = true ∨ anchor = [] → isAbsolute rel = false →
      normalizePath anchor (join anchor rel) = normalizePath anchor rel) ∧
    (∀ anchor p q, isAbsolute anchor = true ∨ anchor = [] →
      normalizePath anchor p = normalizePath anchor q →
      isUtf8 (keyPath anchor p) = isUtf8 (keyPath anchor q) ∧
      ((resolve anchor p).map fold = (resolve anchor q).map fold ∨
        Under anchor p ∧ ¬ Under anchor q ∧ (keyPath anchor p).head? = some backslash ∨
        Under anchor q ∧ ¬ Under anchor p ∧ (keyPath anchor q).head? = some backslash)) ∧
    (∀ units units', encodeOsWide units = encodeOsWide units' →
      units.map foldUnit = units'.map foldUnit) ∧
    (∀ units text, wideToStr units = some text →
      encodeOsWide units = encodeOsPath (text.flatMap String.utf8EncodeChar)) ∧
    ∀ units bytes, wideToStr units = none → encodeOsWide units ≠ encodeOsPath bytes := by
  refine ⟨lexicalNormalize_idem, fun anchor rel => normalizePath_join, ?_, ?_, ?_, ?_⟩
  · intro anchor p q hanchor h
    rw [normalizePath_inj] at h
    refine ⟨isUtf8_of_same h, ?_⟩
    by_cases hp : Under anchor p
    · by_cases hq : Under anchor q
      · exact .inl (resolve_of_same hanchor (iff_of_true hp hq) h)
      · rcases hanchor with habs | rfl
        · exact .inr (.inl ⟨hp, hq, backslash_of_mixed habs hp hq h⟩)
        · exact absurd List.nil_prefix hq
    · by_cases hq : Under anchor q
      · rcases hanchor with habs | rfl
        · exact .inr (.inr ⟨hq, hp, backslash_of_mixed habs hq hp h.symm⟩)
        · exact absurd List.nil_prefix hp
      · exact .inl (resolve_of_same hanchor (iff_of_false hp hq) h)
  · intro units units' h
    rw [encodeOsWide_eq, encodeOsWide_eq] at h
    exact eq_of_percentEncodeWtf16_eq h
  · intro units text h
    rw [encodeOsWide, h, encodeOsPath_eq]
  · intro units bytes h
    obtain ⟨u, hu⟩ := exists_surrogate h
    rw [encodeOsWide_eq, encodeOsPath_eq]
    exact percentEncodeWtf16_ne_bytes hu bytes

/-- The file `b` beneath the anchor `/a`, given relative to the anchor and in full. -/
theorem pathKey_laws_beneath :
    normalizePath [47, 97] (join [47, 97] [98]) = normalizePath [47, 97] [98] ∧
    (resolve [47, 97] [47, 97, 47, 98]).map fold = (resolve [47, 97] [98]).map fold := by
  refine ⟨pathKey_laws.2.1 _ _ (.inl (by decide)) (by decide), ?_⟩
  rcases (pathKey_laws.2.2.1 [47, 97] [47, 97, 47, 98] [98] (.inl (by decide))
    (by decide +kernel)).2 with h | ⟨-, -, h⟩ | ⟨-, -, h⟩
  · exact h
  · exact absurd h (by decide)
  · exact absurd h (by decide)

/-- A relative anchor is joined twice, and a name that begins with a backslash is taken for a
path from the root. -/
theorem pathKey_collision :
    normalizePath [97] (join [97] [98]) ≠ normalizePath [97] [98] ∧
    normalizePath [47, 97] [47, 97, 47, 92, 120] = normalizePath [47, 97] [47, 120] ∧
    (lexicalNormalize [47, 97, 47, 92, 120]).map fold ≠
      (lexicalNormalize [47, 120]).map fold := by
  decide +kernel

end BigCodeAnalysis.Baseline
