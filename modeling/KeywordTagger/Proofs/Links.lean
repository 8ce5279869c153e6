import KeywordTagger.Proofs.Fallback
import KeywordTagger.Proofs.Levels

/-!
Failure links and falling back. Once the links of all words up to some length are there, following
them from the link of a word of that length finds the link of the word with one more code point, so
child by child every stem is linked to the stem it falls back to.
-/

namespace KeywordTagger

open Dictionary DoubleArray

namespace FailureLinks

def target (st : List Char → Nat) (w : List Char) : Nat := if w = [] then rootState else st w

/-- The words of which `done` holds are linked, and nothing else is. -/
structure LinksTo (links : FailureLinks) (rule : LinkRule) (a : DoubleArray) (d : Dictionary)
    (st : List Char → Nat) (done : List Char → Prop) : Prop where
  size : links.size = a.size
  linked : ∀ {w : List Char}, d.isStem w = true → w ≠ [] → done w →
    links[st w]? = some (target st (d.fallback rule w))
  unlinked : ∀ {s : Nat}, s < a.size →
    (∀ w, d.isStem w = true → w ≠ [] → done w → s ≠ st w) → links[s]? = some rootState

section Target

variable {a : DoubleArray} {d : Dictionary} {st : List Char → Nat} {w : List Char}

theorem target_nil : target st [] = rootState := if_pos rfl

theorem target_of_ne (hw : w ≠ []) : target st w = st w := if_neg hw

theorem target_append (v : List Char) (c : Char) : target st (v ++ [c]) = st (v ++ [c]) :=
  target_of_ne (List.append_ne_nil_of_right_ne_nil v (List.cons_ne_nil c []))

theorem target_eq_root_iff (h : a.Represents d st) (hw : d.isStem w = true) :
    target st w = rootState ↔ w = [] := by
  constructor
  · intro heq
    by_cases hne : w = []
    · exact hne
    · rw [target_of_ne hne] at heq
      exact absurd heq (Nat.ne_of_gt (h.pos hw))
  · rintro rfl
    exact target_nil

theorem state_of_target (h : a.Represents d st) (hw : d.isStem w = true) :
    (if target st w = rootState then startState else target st w) = st w := by
  by_cases hne : w = []
  · subst hne
    rw [if_pos target_nil, h.start]
  · rw [if_neg fun hroot => hne ((target_eq_root_iff h hw).mp hroot), target_of_ne hne]

end Target

section Follow

variable {a : DoubleArray} {d : Dictionary} {st : List Char → Nat} {links : FailureLinks}
  {rule : LinkRule} {done : List Char → Prop}

theorem LinksTo.link_eq (h : links.LinksTo rule a d st done) {w : List Char}
    (stem : d.isStem w = true) (hw : w ≠ []) (hd : done w) :
    links.link (st w) = target st (d.fallback rule w) := by
  rw [link, h.linked stem hw hd, Option.getD_some]

theorem LinksTo.moves {a : DoubleArray} (h : links.LinksTo rule a d st done)
    (rep : a.Represents d st) {u : List Char} (stem : d.isStem u = true) (hd : done u)
    (on : target st u ≠ rootState) :
    u ≠ [] ∧ links[target st u]? = some (target st (d.fallback rule u)) ∧
      (d.fallback rule u).length < u.length := by
  have hu : u ≠ [] := fun empty => on ((target_eq_root_iff rep stem).mpr empty)
  rw [target_of_ne hu]
  exact ⟨hu, h.linked stem hu hd, d.length_fallback_lt rule hu⟩

theorem LinksTo.follow_chained (h : links.LinksTo .chained a d st done) (rep : a.Represents d st)
    (c : Char) (tries : Nat) {u : List Char} (stem : d.isStem u = true)
    (ready : ∀ w, d.isStem w = true → w.length ≤ u.length → done w) (enough : u.length < tries) :
    follow .chained a links c.toNat tries (target st u) = target st (d.extend .chained c u) := by
  induction tries generalizing u with
  | zero => exact absurd enough (Nat.not_lt_zero _)
  | succ tries ih =>
    rw [follow, state_of_target rep stem, rep.next_eq stem]
    by_cases longer : d.isStem (u ++ [c]) = true
    · rw [extend_of_isStem longer, target_append, if_pos longer]
    · rw [if_neg longer]
      by_cases root : target st u = rootState
      · cases (target_eq_root_iff rep stem).mp root
        rw [extend_nil_of_not longer, target_nil]
        rfl
      · -- Without an edge the link is followed, and the links of shorter words are there.
        obtain ⟨hu, linked, shorter⟩ := h.moves rep stem (ready u stem (Nat.le_refl _)) root
        have chain : ¬ (LinkRule.chained = .parentOnly ∨ target st u = rootState) := by
          rintro (hrule | heq)
          · cases hrule
          · exact root heq
        simp only [if_neg chain, link, linked, Option.getD_some]
        rw [extend_of_not longer hu]
        apply ih (isStem_fallback d _ _)
        · intro w hw hlen
          exact ready w hw (by omega)
        · omega

theorem follow_parentOnly (rep : a.Represents d st) (links : FailureLinks) (c : Char) (tries : Nat)
    {u : List Char} (stem : d.isStem u = true) (enough : 0 < tries) :
    follow .parentOnly a links c.toNat tries (target st u) =
      target st (if d.isStem (u ++ [c]) then u ++ [c] else []) := by
  obtain ⟨tries, rfl⟩ := Nat.exists_eq_succ_of_ne_zero (Nat.ne_of_gt enough)
  rw [follow, state_of_target rep stem, rep.next_eq stem]
  by_cases longer : d.isStem (u ++ [c]) = true
  · rw [if_pos longer, if_pos longer, target_append]
  · rw [if_neg longer, if_neg longer, target_nil]
    rfl

/-- Following the links from that of a word finds the link of the word with one more code point. -/
theorem LinksTo.follow_eq (h : links.LinksTo rule a d st done) (rep : a.Represents d st)
    {v : List Char} (hv : v ≠ []) (c : Char)
    (ready : ∀ w, d.isStem w = true → w.length ≤ v.length → done w) :
    follow rule a links c.toNat v.length (target st (d.fallback rule v)) =
      target st (d.fallback rule (v ++ [c])) := by
  have shorter := d.length_fallback_lt rule hv
  have stem := isStem_fallback d rule v
  cases rule with
  | parentOnly =>
    rw [follow_parentOnly rep links c _ stem (Nat.zero_lt_of_lt shorter),
      fallback_parentOnly_append v c hv]
  | chained =>
    rw [h.follow_chained rep c _ stem (fun w hw hlen => ready w hw (by omega)) shorter,
      fallback_chained_append v c hv, extend_chained c stem]

end Follow

section Build

variable {e : Encoding} {d : Dictionary} {st : List Char → Nat} {links : FailureLinks}
  {rule : LinkRule} {done : List Char → Prop}

theorem LinksTo.congr {a : DoubleArray} {done' : List Char → Prop}
    (h : links.LinksTo rule a d st done)
    (same : ∀ w, d.isStem w = true → w ≠ [] → (done' w ↔ done w)) :
    links.LinksTo rule a d st done' where
  size := h.size
  linked := fun stem hw hd => h.linked stem hw ((same _ stem hw).mp hd)
  unlinked := fun hs others =>
    h.unlinked hs fun w stem hw hd => others w stem hw ((same w stem hw).mpr hd)

theorem linksTo_start (rule : LinkRule) {a : DoubleArray} (rep : a.Represents d st) :
    LinksTo (Array.replicate a.size rootState) rule a d st fun w => w.length ≤ 1 where
  size := Array.size_replicate
  linked := by
    intro w stem hw hlen
    have hlt := rep.state_lt_size stem
    obtain ⟨c, rfl⟩ := List.length_eq_one_iff.mp
      (Nat.le_antisymm hlen (List.length_pos_iff.mpr hw))
    rw [fallback_singleton, target_nil]
    simp [hlt]
  unlinked := by
    intro s hs _
    simp [hs]

theorem LinksTo.set {a : DoubleArray} (h : links.LinksTo rule a d st done)
    (rep : a.Represents d st) {w : List Char} (stem : d.isStem w = true) (hw : w ≠ []) :
    LinksTo (links.setIfInBounds (st w) (target st (d.fallback rule w))) rule a d st
      fun u => done u ∨ u = w where
  size := by rw [Array.size_setIfInBounds, h.size]
  linked := by
    intro u hu hne hd
    by_cases heq : st w = st u
    · cases rep.inj stem hu heq
      have hlt : st w < links.size := h.size ▸ rep.state_lt_size stem
      rw [Array.getElem?_setIfInBounds_self_of_lt hlt]
    · rw [Array.getElem?_setIfInBounds_ne heq]
      rcases hd with hd | rfl
      · exact h.linked hu hne hd
      · exact absurd rfl heq
  unlinked := by
    intro s hs others
    by_cases heq : st w = s
    · exact absurd heq.symm (others w stem hw (.inr rfl))
    · rw [Array.getElem?_setIfInBounds_ne heq]
      exact h.unlinked hs fun u hu hne hd => others u hu hne (.inl hd)

def linkChild (rule : LinkRule) (table : DoubleArray) (n : Node) (links : FailureLinks)
    (child : Node) : FailureLinks :=
  links.setIfInBounds child.state (follow rule table links child.code n.depth (links.link n.state))

section Children

variable {p : Nat} {n : Node} {v : List Char} (h : links.LinksTo rule e.table d st done)
  (fin : e.Finished d st) (hn : e.tree.nodes[p]? = some n) (hw : n.Covers d v) (hv : v ≠ [])
  (ready : ∀ u, d.isStem u = true → u.length ≤ v.length → done u)

include h fin hn hw hv ready

theorem LinksTo.linkChild {m : Node} (hm : m ∈ e.tree.inner n.children) :
    LinksTo (linkChild rule e.table n links m) rule e.table d st
      fun u => done u ∨ m.Covers d u := by
  have rep := fin.represents
  obtain ⟨c, hc, hvc, hstate, _⟩ := child_facts fin hn hw hm
  have value : follow rule e.table links m.code v.length (links.link (st v)) =
      target st (d.fallback rule (v ++ [c])) := by
    rw [h.link_eq hw.isStem hv (ready v hw.isStem (Nat.le_refl _)), hc]
    exact h.follow_eq rep hv c ready
  have next := h.set rep hvc.isStem (List.append_ne_nil_of_right_ne_nil v (List.cons_ne_nil c []))
  rw [← value, ← hstate] at next
  rw [FailureLinks.linkChild, fin.state_eq hn hw, hw.depth]
  refine next.congr fun u _ _ => ?_
  exact or_congr_right ⟨fun hu => hu.word_unique hvc, fun hu => hu ▸ hvc⟩

/-- The children are linked one after the other. The links they are found by are those of words no
longer than the parent's, which none of them changes. -/
theorem LinksTo.linkSome {ms : List Node} (children : ∀ m ∈ ms, m ∈ e.tree.inner n.children) :
    LinksTo (ms.foldl (FailureLinks.linkChild rule e.table n) links) rule e.table d st
      fun u => done u ∨ ∃ m ∈ ms, m.Covers d u := by
  induction ms generalizing links done with
  | nil =>
    refine h.congr fun u _ _ => ?_
    simp
  | cons m ms ih =>
    obtain ⟨hm, children⟩ := List.forall_mem_cons.mp children
    have next := h.linkChild fin hn hw hv ready hm
    have all := ih next (fun u hu hlen => .inl (ready u hu hlen)) children
    refine all.congr fun u _ _ => ?_
    simp only [List.mem_cons, exists_eq_or_imp, or_assoc]

theorem LinksTo.linkChildren :
    LinksTo (linkChildren rule e.tree e.table links n) rule e.table d st
      fun u => done u ∨ ∃ m ∈ e.tree.inner n.children, m.Covers d u :=
  h.linkSome fin hn hw hv ready fun _ hm => hm

end Children

def Linked (e : Encoding) (d : Dictionary) (visited : List Node) (w : List Char) : Prop :=
  w.length ≤ 1 ∨ ∃ n ∈ visited, ∃ m ∈ e.tree.inner n.children, m.Covers d w

theorem exists_parent (fin : e.Finished d st) {u : List Char} (stem : d.isStem u = true)
    (long : 1 < u.length) : ∃ n ∈ (linkOrder e.tree).toList, n.depth < u.length ∧
      ∃ m ∈ e.tree.inner n.children, m.Covers d u := by
  rcases List.eq_nil_or_concat u with rfl | ⟨v, c, rfl⟩
  · cases long
  · rw [List.concat_eq_append] at stem long ⊢
    rw [List.length_append, List.length_singleton] at long ⊢
    have shorter := isStem_of_append stem
    have order := ordered_linkOrder fin
    have room := length_lt_nodes fin shorter
    obtain ⟨n, hn, hv⟩ := order.all v shorter (Nat.le_of_lt_succ long) (by omega)
    obtain ⟨p, w, hp, _⟩ := order.node n hn
    exact ⟨n, hn, Nat.lt_succ_of_le (Nat.le_of_eq hv.depth), exists_inner fin hp hv stem⟩

/-- When a node is visited, all words that are no longer than its own are linked. -/
theorem linked_of_le (fin : e.Finished d st) {visited later : List Node} {n : Node}
    (order : (linkOrder e.tree).toList = visited ++ n :: later) {v : List Char}
    (hv : n.Covers d v) (u : List Char) (stem : d.isStem u = true) (hle : u.length ≤ v.length) :
    Linked e d visited u := by
  rcases Nat.lt_or_ge 1 u.length with long | short
  · obtain ⟨k, hk, shallow, below⟩ := exists_parent fin stem long
    refine .inr ⟨k, ?_, below⟩
    have ascending := (ordered_linkOrder fin).ascending
    rw [order] at hk ascending
    refine (List.mem_append.mp hk).resolve_right fun hk => ?_
    -- From the node on, none is less deep.
    have deep : n.depth ≤ k.depth := by
      rcases List.mem_cons.mp hk with rfl | hk
      · exact Nat.le_refl _
      · exact (List.pairwise_cons.mp (List.pairwise_append.mp ascending).2.1).1 k hk
    have := hv.depth
    omega
  · exact .inl short

theorem linksTo_visited (rule : LinkRule) (fin : e.Finished d st) {visited later : List Node}
    (order : (linkOrder e.tree).toList = visited ++ later) :
    LinksTo (visited.foldl (FailureLinks.linkChildren rule e.tree e.table)
      (Array.replicate e.table.size rootState)) rule e.table d st (Linked e d visited) := by
  induction visited using List.reverseRecOn generalizing later with
  | nil =>
    refine (linksTo_start rule fin.represents).congr fun u _ _ => ?_
    simp [Linked]
  | append_singleton visited n ih =>
    rw [List.append_assoc] at order
    obtain ⟨p, v, hn, hv, pos⟩ := (ordered_linkOrder fin).node n (by simp [order])
    have next := (ih order).linkChildren fin hn hv (List.length_pos_iff.mp pos)
      (linked_of_le fin order hv)
    rw [List.foldl_append]
    refine next.congr fun u _ _ => ?_
    simp [Linked, or_and_right, exists_or, or_assoc]

theorem linksTo_ofEncoding (rule : LinkRule) (fin : e.Finished d st) :
    (ofEncoding rule e).LinksTo rule e.table d st fun _ => True := by
  rw [ofEncoding, ← Array.foldl_toList]
  refine (linksTo_visited rule fin (List.append_nil _).symm).congr fun w stem _ => ?_
  refine ⟨fun _ => ?_, fun _ => trivial⟩
  rcases Nat.lt_or_ge 1 w.length with long | short
  · obtain ⟨n, hn, _, below⟩ := exists_parent fin stem long
    exact .inr ⟨n, hn, below⟩
  · exact .inl short

end Build

/-- The links of the stems are those to the words that `u` gives, and no other index has one. -/
structure GivenBy (links : FailureLinks) (a : DoubleArray) (d : Dictionary) (st : List Char → Nat)
    (u : List Char → List Char) : Prop where
  size : links.size = a.size
  stem : ∀ w, d.isStem (u w) = true
  suffix : ∀ w, u w <:+ w
  shorter : ∀ w, w ≠ [] → (u w).length < w.length
  linked : ∀ w, d.isStem w = true → w ≠ [] → links[st w]? = some (target st (u w))
  unlinked : ∀ s, s < a.size → (∀ w, d.isStem w = true → w ≠ [] → s ≠ st w) →
    links[s]? = some rootState
  live : ∀ s l : Nat, links[s]? = some l → l ≠ rootState →
    l ≠ startState ∧ ∃ slot ∈ a.slots, slot.base = (l : Int)

theorem givenBy_fallback {e : Encoding} {d : Dictionary} {st : List Char → Nat}
    (rule : LinkRule) (fin : e.Finished d st) :
    (ofEncoding rule e).GivenBy e.table d st (d.fallback rule) := by
  have links := linksTo_ofEncoding rule fin
  have rep := fin.represents
  constructor
  · exact links.size
  · exact isStem_fallback d rule
  · exact fallback_suffix d rule
  · exact fun w hw => d.length_fallback_lt rule hw
  · exact fun w stem hw => links.linked stem hw trivial
  · exact fun s hs others => links.unlinked hs fun w stem hw _ => others w stem hw
  · intro s l hl hroot
    by_cases hs : ∃ w, d.isStem w = true ∧ w ≠ [] ∧ s = st w
    · obtain ⟨w, stem, hw, rfl⟩ := hs
      rw [links.linked stem hw trivial] at hl
      cases hl
      have stem' := isStem_fallback d rule w
      have hne : d.fallback rule w ≠ [] := fun heq =>
        hroot ((target_eq_root_iff rep stem').mpr heq)
      rw [target_of_ne hne]
      exact ⟨fun hstart => hne ((rep.state_eq_start_iff stem').mp hstart),
        rep.exists_slot stem' hne⟩
    · have hlt : s < e.table.size := links.size ▸ (Array.getElem?_eq_some_iff.mp hl).1
      rw [links.unlinked hlt fun w stem hw _ heq => hs ⟨w, stem, hw, heq⟩] at hl
      exact absurd (Option.some.inj hl).symm hroot

/-- A link leads to a shorter end of the word that is a stem: by the chained rule the longest one,
by the other rule the end that one code point adds to the link of the word before it. -/
theorem links_of_stems (growth : Nat) (d : Dictionary) :
    let e := Encoding.ofDictionary growth d
    ∃ (st : List Char → Nat) (parent chain : List Char → List Char),
      e.table.Represents d st ∧
      (ofEncoding .parentOnly e).GivenBy e.table d st parent ∧
      (ofEncoding .chained e).GivenBy e.table d st chain ∧
      (∀ c, parent [c] = []) ∧
      (∀ v c, v ≠ [] → parent (v ++ [c]) =
        if d.isStem (parent v ++ [c]) then parent v ++ [c] else []) ∧
      (∀ w v, v <:+ w → v.length < w.length → d.isStem v = true →
        v.length ≤ (chain w).length) ∧
      (∀ w, parent w <:+ chain w) := by
  intro e
  obtain ⟨st, fin⟩ := Encoding.exists_finished growth d
  refine ⟨st, d.fallback .parentOnly, d.fallback .chained, fin.represents,
    givenBy_fallback .parentOnly fin, givenBy_fallback .chained fin,
    fallback_singleton .parentOnly, fallback_parentOnly_append, ?_,
    d.fallback_suffix_chained .parentOnly⟩
  intro w v hv hlt stem
  cases w with
  | nil => cases hlt
  | cons c w =>
    rcases List.suffix_cons_iff.mp hv with rfl | hv
    · exact absurd hlt (Nat.lt_irrefl _)
    · exact length_le_longestStem hv stem

end FailureLinks

end KeywordTagger
