import KeywordTagger.PrefixTree
import KeywordTagger.Proofs.Stems

/-!
How the patterns of a node branch. In dictionary order the patterns that begin with one word lie
side by side, and among them those with one next code do so again. Cutting the span of a node into
such runs gives its children, and every stem one code point longer is the word of exactly one child.
-/

namespace KeywordTagger

open Dictionary

namespace Node

def bare (n : Node) : Node := { n with slot := 0, base := 0, children := {} }

structure Covers (d : Dictionary) (n : Node) (w : List Char) : Prop where
  inner : n.isEnd = false
  depth : n.depth = w.length
  nonempty : n.left < n.right
  mem_iff : ∀ i, (n.left ≤ i ∧ i < n.right) ↔ ∃ p, d.patterns[i]? = some p ∧ w <+: p.toList

structure Closes (d : Dictionary) (n : Node) (w : List Char) : Prop where
  isEnd : n.isEnd = true
  depth : n.depth = w.length + 1
  single : n.right = n.left + 1
  pattern : ∃ p, d.patterns[n.left]? = some p ∧ p.toList = w

def StandsFor (d : Dictionary) (n : Node) (w : List Char) : Prop := n.Covers d w ∨ n.Closes d w

theorem isEnd_iff {n : Node} : n.isEnd = true ↔ n.code = endCode := by simp [isEnd]

theorem isEnd_eq_false_iff {n : Node} : n.isEnd = false ↔ n.code ≠ endCode := by simp [isEnd]

section Bare

variable {d : Dictionary} {n m : Node} {w : List Char}

theorem fields_of_bare_eq (h : n.bare = m.bare) :
    n.code = m.code ∧ n.depth = m.depth ∧ n.left = m.left ∧ n.right = m.right := by
  simpa [bare] using h

theorem bare_bare (n : Node) : n.bare.bare = n.bare := rfl

theorem isEnd_of_bare_eq (h : n.bare = m.bare) : n.isEnd = m.isEnd := by
  simp only [isEnd, (fields_of_bare_eq h).1]

theorem covers_of_bare_eq (h : n.bare = m.bare) (hm : m.Covers d w) : n.Covers d w := by
  obtain ⟨_, hdepth, hleft, hright⟩ := fields_of_bare_eq h
  refine ⟨(isEnd_of_bare_eq h).trans hm.inner, hdepth.trans hm.depth, ?_, ?_⟩
  · simpa only [hleft, hright] using hm.nonempty
  · simpa only [hleft, hright] using hm.mem_iff

theorem closes_of_bare_eq (h : n.bare = m.bare) (hm : m.Closes d w) : n.Closes d w := by
  obtain ⟨_, hdepth, hleft, hright⟩ := fields_of_bare_eq h
  refine ⟨(isEnd_of_bare_eq h).trans hm.isEnd, hdepth.trans hm.depth, ?_, ?_⟩
  · simpa only [hleft, hright] using hm.single
  · simpa only [hleft] using hm.pattern

end Bare

end Node

namespace Dictionary

variable {d : Dictionary}

/-! The code of a pattern behind a word that it begins with. -/

theorem code_of_eq {i depth : Nat} {p : Pattern} {w : List Char} (hp : d.patterns[i]? = some p)
    (hw : p.toList = w) (hd : depth = w.length) : d.code i depth = endCode := by
  subst hw hd
  simp [code, hp]

theorem code_of_append {i depth : Nat} {p : Pattern} {w rest : List Char} {c : Char}
    (hp : d.patterns[i]? = some p) (hw : p.toList = w ++ c :: rest) (hd : depth = w.length) :
    d.code i depth = c.toNat := by
  have hc : p[depth]? = some c := by
    rw [← Array.getElem?_toList, hw, hd]
    simp
  simp [code, hp, hc]

theorem code_eq_endCode {i : Nat} {p : Pattern} {w : List Char} (hp : d.patterns[i]? = some p)
    (hw : w <+: p.toList) (h : d.code i w.length = endCode) : p.toList = w := by
  obtain ⟨rest, hrest⟩ := hw
  cases rest with
  | nil => simpa using hrest.symm
  | cons c rest =>
    rw [code_of_append hp hrest.symm rfl] at h
    have stem : d.isStem (w ++ [c]) = true :=
      isStem_iff.mpr ⟨i, p, hp, ⟨rest, by simpa using hrest⟩⟩
    exact absurd h (toNat_ne_endCode stem)

theorem prefix_of_code_eq {i : Nat} {p : Pattern} {w : List Char} {c : Char}
    (hp : d.patterns[i]? = some p) (hw : w <+: p.toList) (h : d.code i w.length = c.toNat)
    (hc : c.toNat ≠ endCode) : w ++ [c] <+: p.toList := by
  obtain ⟨rest, hrest⟩ := hw
  cases rest with
  | nil =>
    rw [code_of_eq hp (by simpa using hrest.symm) rfl] at h
    exact absurd h.symm hc
  | cons b rest =>
    rw [code_of_append hp hrest.symm rfl] at h
    have hb : b = c := Char.ext (UInt32.toNat_inj.mp h)
    subst hb
    exact ⟨rest, by simpa using hrest⟩

theorem code_of_begins {i : Nat} {p : Pattern} {w : List Char} {c : Char}
    (hp : d.patterns[i]? = some p) (hw : w ++ [c] <+: p.toList) :
    d.code i w.length = c.toNat := by
  obtain ⟨rest, hrest⟩ := hw
  exact code_of_append hp (by simpa using hrest.symm) rfl

theorem lt_of_append_lt_append {w r s : List Char} (h : w ++ r < w ++ s) : r < s := by
  induction w with
  | nil => exact h
  | cons c w ih => exact ih (List.cons_lt_cons_self.mp h)

theorem code_le_code {i j : Nat} {p q : Pattern} {w : List Char} (hp : d.patterns[i]? = some p)
    (hq : d.patterns[j]? = some q) (hwp : w <+: p.toList) (hwq : w <+: q.toList) (hij : i ≤ j) :
    d.code i w.length ≤ d.code j w.length := by
  rcases Nat.eq_or_lt_of_le hij with rfl | hlt
  · exact Nat.le_refl _
  have order := lt_of_lt_index hp hq hlt
  obtain ⟨r, hr⟩ := hwp
  obtain ⟨s, hs⟩ := hwq
  rw [← hr, ← hs] at order
  replace order := lt_of_append_lt_append order
  cases r with
  | nil =>
    rw [code_of_eq hp (by simpa using hr.symm) rfl]
    exact Nat.zero_le _
  | cons b r =>
    cases s with
    | nil => exact absurd order (List.not_lt_nil _)
    | cons c s =>
      rw [code_of_append hp hr.symm rfl, code_of_append hq hs.symm rfl]
      rcases List.cons_lt_cons_iff.mp order with h | ⟨rfl, _⟩
      · exact Nat.le_of_lt h
      · exact Nat.le_refl _

/-! Cutting a span of patterns into runs of one code. -/

structure IsRun (d : Dictionary) (depth left : Nat) (n : Node) : Prop where
  left_eq : n.left = left
  depth_eq : n.depth = depth + 1
  bare_eq : n.bare = n
  nonempty : left < n.right
  code_eq : ∀ i, left ≤ i → i < n.right → d.code i depth = n.code

/-- Siblings that are runs side by side from `left` to `right`, none with the code of the next. -/
def Runs (d : Dictionary) (depth : Nat) : Nat → List Node → Nat → Prop
  | left, [], right => left = right
  | left, n :: ns, right =>
    IsRun d depth left n ∧ (∀ m ∈ ns.head?, n.code ≠ m.code) ∧ Runs d depth n.right ns right

theorem runs_addPattern {depth id right : Nat} {ns : List Node}
    (h : Runs d depth (id + 1) ns right) :
    Runs d depth id (Node.addPattern (depth + 1) id (d.code id depth) ns) right := by
  have single : IsRun d depth id
      { code := d.code id depth, depth := depth + 1, left := id, right := id + 1 } := by
    refine ⟨rfl, rfl, rfl, Nat.lt_succ_self id, ?_⟩
    intro i hi hr
    rw [show i = id by simp only at hr; omega]
  cases ns with
  | nil => exact ⟨single, by simp, h⟩
  | cons n ns =>
    obtain ⟨run, differs, rest⟩ := h
    by_cases hc : n.code = d.code id depth
    · simp only [Node.addPattern, if_pos hc]
      refine ⟨⟨rfl, run.depth_eq, ?_, ?_, ?_⟩, differs, rest⟩
      · rw [← run.bare_eq]
        rfl
      · exact Nat.lt_of_succ_lt run.nonempty
      · intro i hi hr
        rcases Nat.eq_or_lt_of_le hi with rfl | hi
        · exact hc.symm
        · exact run.code_eq i hi hr
    · simp only [Node.addPattern, if_neg hc]
      refine ⟨single, ?_, run, differs, rest⟩
      intro m hm
      simp only [List.head?_cons, Option.mem_def, Option.some.injEq] at hm
      subst hm
      exact Ne.symm hc

theorem runs_branches (depth : Nat) {left right : Nat} (h : left ≤ right) :
    Runs d depth left (d.branches depth ⟨left, right⟩) right := by
  obtain ⟨n, rfl⟩ := Nat.exists_eq_add_of_le h
  simp only [branches, Span.toList, Span.length, Nat.add_sub_cancel_left]
  induction n generalizing left with
  | zero => rfl
  | succ n ih =>
    rw [List.range'_succ, List.foldr_cons]
    apply runs_addPattern
    rw [← Nat.add_assoc, Nat.add_right_comm]
    exact ih (Nat.le_add_right _ n)

theorem Runs.le {depth left right : Nat} {ns : List Node} (h : Runs d depth left ns right) :
    left ≤ right := by
  induction ns generalizing left with
  | nil => exact Nat.le_of_eq h
  | cons n ns ih => exact Nat.le_trans (Nat.le_of_lt h.1.nonempty) (ih h.2.2)

theorem Runs.isRun {depth left right : Nat} {ns : List Node} (h : Runs d depth left ns right)
    {n : Node} (hn : n ∈ ns) : IsRun d depth n.left n ∧ left ≤ n.left ∧ n.right ≤ right := by
  induction ns generalizing left with
  | nil => simp at hn
  | cons m ns ih =>
    obtain ⟨run, _, rest⟩ := h
    rcases List.mem_cons.mp hn with rfl | hn
    · have hl := run.left_eq
      exact ⟨hl ▸ run, Nat.le_of_eq hl.symm, rest.le⟩
    · obtain ⟨hrun, hl, hr⟩ := ih rest hn
      exact ⟨hrun, Nat.le_trans (Nat.le_of_lt run.nonempty) hl, hr⟩

theorem Runs.exists_run {depth left right : Nat} {ns : List Node} (h : Runs d depth left ns right)
    {i : Nat} (hl : left ≤ i) (hr : i < right) : ∃ n ∈ ns, n.left ≤ i ∧ i < n.right := by
  induction ns generalizing left with
  | nil =>
    have : left = right := h
    omega
  | cons n ns ih =>
    obtain ⟨run, _, rest⟩ := h
    by_cases hi : i < n.right
    · exact ⟨n, List.mem_cons_self, by rw [run.left_eq]; exact hl, hi⟩
    · obtain ⟨m, hm, him⟩ := ih rest (Nat.le_of_not_lt hi)
      exact ⟨m, List.mem_cons_of_mem n hm, him⟩

/-- Where codes ascend with the ids, runs that differ from their neighbours have ascending codes. -/
theorem Runs.pairwise {depth left right : Nat} {ns : List Node} (h : Runs d depth left ns right)
    (ascend : ∀ i j, left ≤ i → i ≤ j → j < right → d.code i depth ≤ d.code j depth) :
    ns.Pairwise fun m n => m.code < n.code := by
  induction ns generalizing left with
  | nil => exact List.Pairwise.nil
  | cons n ns ih =>
    obtain ⟨run, differs, rest⟩ := h
    have tail := ih rest fun i j hi => ascend i j (Nat.le_trans (Nat.le_of_lt run.nonempty) hi)
    refine List.pairwise_cons.mpr ⟨?_, tail⟩
    cases ns with
    | nil => simp
    | cons m ns =>
      have head : n.code < m.code := by
        obtain ⟨next, _, last⟩ := rest
        have hle := ascend left n.right (Nat.le_refl _) (Nat.le_of_lt run.nonempty)
          (Nat.lt_of_lt_of_le next.nonempty last.le)
        rw [run.code_eq left (Nat.le_refl _) run.nonempty,
          next.code_eq n.right (Nat.le_refl _) next.nonempty] at hle
        exact Nat.lt_of_le_of_ne hle (differs m rfl)
      intro k hk
      rcases List.mem_cons.mp hk with rfl | hk
      · exact head
      · exact Nat.lt_trans head ((List.pairwise_cons.mp tail).1 k hk)

/-! The children of an inner node. -/

section Children

variable {n m : Node} {w : List Char}

theorem runs_of_covers (h : n.Covers d w) :
    Runs d n.depth n.left (d.branches n.depth n.ids) n.right :=
  runs_branches n.depth (Nat.le_of_lt h.nonempty)

theorem ascend_of_covers (h : n.Covers d w) (i j : Nat) (hi : n.left ≤ i) (hij : i ≤ j)
    (hj : j < n.right) : d.code i n.depth ≤ d.code j n.depth := by
  obtain ⟨p, hp, hwp⟩ := (h.mem_iff i).mp ⟨hi, Nat.lt_of_le_of_lt hij hj⟩
  obtain ⟨q, hq, hwq⟩ := (h.mem_iff j).mp ⟨Nat.le_trans hi hij, hj⟩
  rw [h.depth]
  exact code_le_code hp hq hwp hwq hij

theorem pairwise_branches (h : n.Covers d w) :
    (d.branches n.depth n.ids).Pairwise fun k m => k.code < m.code :=
  (runs_of_covers h).pairwise (ascend_of_covers h)

theorem branches_ne_nil (h : n.Covers d w) : d.branches n.depth n.ids ≠ [] := by
  obtain ⟨m, hm, _⟩ := (runs_of_covers h).exists_run (Nat.le_refl _) h.nonempty
  exact List.ne_nil_of_mem hm

theorem bare_of_mem_branches (h : n.Covers d w) (hm : m ∈ d.branches n.depth n.ids) :
    m.bare = m := ((runs_of_covers h).isRun hm).1.bare_eq

theorem branch_unique {k : Node} (h : n.Covers d w) (hk : k ∈ d.branches n.depth n.ids)
    (hm : m ∈ d.branches n.depth n.ids) (hc : k.code = m.code) : k = m := by
  have up : (d.branches n.depth n.ids).Pairwise fun k m => k.code = m.code → k = m :=
    (pairwise_branches h).imp fun hlt he => absurd he (Nat.ne_of_lt hlt)
  have down : (d.branches n.depth n.ids).Pairwise (flip fun k m => k.code = m.code → k = m) :=
    (pairwise_branches h).imp fun hlt he => absurd he (Nat.ne_of_gt hlt)
  exact List.Pairwise.forall_of_forall_of_flip (fun _ _ _ => rfl) up down hk hm hc

theorem mem_branch_iff (h : n.Covers d w) (hm : m ∈ d.branches n.depth n.ids) (i : Nat) :
    (m.left ≤ i ∧ i < m.right) ↔ (n.left ≤ i ∧ i < n.right) ∧ d.code i w.length = m.code := by
  have runs := runs_of_covers h
  obtain ⟨run, hl, hr⟩ := runs.isRun hm
  rw [← h.depth]
  constructor
  · rintro ⟨hi, hj⟩
    exact ⟨⟨Nat.le_trans hl hi, Nat.lt_of_lt_of_le hj hr⟩, run.code_eq i hi hj⟩
  · rintro ⟨⟨hi, hj⟩, hc⟩
    obtain ⟨k, hk, hki, hkj⟩ := runs.exists_run hi hj
    have hkc := (runs.isRun hk).1.code_eq i hki hkj
    have := branch_unique h hk hm (hkc.symm.trans hc)
    subst this
    exact ⟨hki, hkj⟩

theorem exists_branch (h : n.Covers d w) {i : Nat} (hi : n.left ≤ i) (hr : i < n.right) :
    ∃ m ∈ d.branches n.depth n.ids, m.code = d.code i w.length := by
  obtain ⟨m, hm, hmi, hmr⟩ := (runs_of_covers h).exists_run hi hr
  exact ⟨m, hm, ((mem_branch_iff h hm i).mp ⟨hmi, hmr⟩).2.symm⟩

theorem covers_of_branch (h : n.Covers d w) (hm : m ∈ d.branches n.depth n.ids)
    (inner : m.isEnd = false) : ∃ c : Char, m.code = c.toNat ∧ m.Covers d (w ++ [c]) := by
  obtain ⟨run, hl, hr⟩ := (runs_of_covers h).isRun hm
  have hmem := mem_branch_iff h hm
  have hc := Node.isEnd_eq_false_iff.mp inner
  obtain ⟨⟨hi, hj⟩, hcode⟩ := (hmem m.left).mp ⟨Nat.le_refl _, run.nonempty⟩
  obtain ⟨p, hp, ⟨rest, hrest⟩⟩ := (h.mem_iff m.left).mp ⟨hi, hj⟩
  cases rest with
  | nil =>
    rw [code_of_eq hp (by simpa using hrest.symm) rfl] at hcode
    exact absurd hcode.symm hc
  | cons c rest =>
    rw [code_of_append hp hrest.symm rfl] at hcode
    refine ⟨c, hcode.symm, inner, ?_, run.nonempty, ?_⟩
    · rw [run.depth_eq, h.depth, List.length_append, List.length_singleton]
    · intro i
      rw [hmem i, h.mem_iff i]
      constructor
      · rintro ⟨⟨q, hq, hwq⟩, hqc⟩
        rw [← hcode] at hqc hc
        exact ⟨q, hq, prefix_of_code_eq hq hwq hqc hc⟩
      · rintro ⟨q, hq, hwq⟩
        refine ⟨⟨q, hq, (List.prefix_append w [c]).trans hwq⟩, ?_⟩
        rw [code_of_begins hq hwq, hcode]

theorem closes_of_branch (h : n.Covers d w) (hm : m ∈ d.branches n.depth n.ids)
    (isEnd : m.isEnd = true) : m.Closes d w := by
  obtain ⟨run, _, _⟩ := (runs_of_covers h).isRun hm
  have hc := Node.isEnd_iff.mp isEnd
  have spells : ∀ i, m.left ≤ i → i < m.right → ∃ p, d.patterns[i]? = some p ∧ p.toList = w := by
    intro i hi hj
    obtain ⟨hn, hcode⟩ := (mem_branch_iff h hm i).mp ⟨hi, hj⟩
    obtain ⟨p, hp, hw⟩ := (h.mem_iff i).mp hn
    exact ⟨p, hp, code_eq_endCode hp hw (hcode.trans hc)⟩
  refine ⟨isEnd, by rw [run.depth_eq, h.depth], ?_, spells _ (Nat.le_refl _) run.nonempty⟩
  have hlt := run.nonempty
  by_cases hs : m.right = m.left + 1
  · exact hs
  · obtain ⟨p, hp, hpw⟩ := spells m.left (Nat.le_refl _) hlt
    obtain ⟨q, hq, hqw⟩ := spells (m.left + 1) (Nat.le_succ _) (by omega)
    have order := lt_of_lt_index hp hq (Nat.lt_succ_self _)
    rw [hpw, hqw] at order
    exact absurd order (List.lt_irrefl _)

theorem standsFor_of_branch (h : n.Covers d w) (hm : m ∈ d.branches n.depth n.ids) :
    ∃ v, m.StandsFor d v := by
  cases he : m.isEnd with
  | false =>
    obtain ⟨c, _, hc⟩ := covers_of_branch h hm he
    exact ⟨_, .inl hc⟩
  | true => exact ⟨w, .inr (closes_of_branch h hm he)⟩

theorem exists_branch_of_isStem (h : n.Covers d w) {c : Char} (stem : d.isStem (w ++ [c]) = true) :
    ∃ m ∈ d.branches n.depth n.ids, m.code = c.toNat := by
  obtain ⟨i, p, hp, hw⟩ := isStem_iff.mp stem
  have hi := (h.mem_iff i).mpr ⟨p, hp, (List.prefix_append w [c]).trans hw⟩
  rw [← code_of_begins hp hw]
  exact exists_branch h hi.1 hi.2

theorem exists_branch_of_pattern (h : n.Covers d w) {i : Nat} {p : Pattern}
    (hp : d.patterns[i]? = some p) (hw : p.toList = w) :
    ∃ m ∈ d.branches n.depth n.ids, m.code = endCode := by
  have hi := (h.mem_iff i).mpr ⟨p, hp, hw ▸ List.prefix_refl _⟩
  rw [← code_of_eq hp hw rfl]
  exact exists_branch h hi.1 hi.2

end Children

end Dictionary

end KeywordTagger
