import KeywordTagger.Chains
import KeywordTagger.Proofs.Scanning
import Mathlib.Logic.Function.Iterate

/-!
Chains of links end. A link leads to a shorter word, so from a state the start is reached within the
length of its word and no state is met twice, and both loops over links end. Where links are found,
those that are read belong to words no longer than the parent's; their nodes were put into the queue
before, so what is read has been written and is not written again.
-/

namespace KeywordTagger

open Dictionary DoubleArray

namespace FailureLinks

section Unique

variable {rule : LinkRule} {tree : PrefixTree} {table : DoubleArray} {links : FailureLinks}

theorem Follows.unique {code state target target' : Nat} {reads reads' : List (Nat × Nat)}
    (h : Follows rule table links code state reads target)
    (h' : Follows rule table links code state reads' target') :
    reads' = reads ∧ target' = target := by
  induction h generalizing reads' with
  | edge next =>
    cases h' with
    | edge next' => exact ⟨rfl, Option.some.inj (next'.symm.trans next)⟩
    | stuck none => cases none.symm.trans next
    | link none => cases none.symm.trans next
  | stuck none stuck =>
    cases h' with
    | edge next => cases none.symm.trans next
    | stuck => exact ⟨rfl, rfl⟩
    | link _ moves => exact absurd stuck moves
  | link none moves linked _ ih =>
    cases h' with
    | edge next => cases none.symm.trans next
    | stuck _ stuck => exact absurd stuck moves
    | link _ _ linked' later =>
      cases linked.symm.trans linked'
      obtain ⟨rfl, rfl⟩ := ih later
      exact ⟨rfl, rfl⟩

theorem LinksChildren.unique {n : Node} {children : List Node} {log log' : List Entry}
    {final final' : FailureLinks} (h : LinksChildren rule table n children links log final)
    (h' : LinksChildren rule table n children links log' final') :
    log' = log ∧ final' = final := by
  induction h generalizing log' with
  | nil =>
    cases h'
    exact ⟨rfl, rfl⟩
  | cons linked follows _ ih =>
    obtain _ | ⟨linked', follows', later⟩ := h'
    cases linked.symm.trans linked'
    obtain ⟨rfl, rfl⟩ := follows.unique follows'
    obtain ⟨rfl, rfl⟩ := ih later
    exact ⟨rfl, rfl⟩

theorem Builds.unique {queue : List Node} {log log' : List Entry} {final final' : FailureLinks}
    (h : Builds rule tree table queue links log final)
    (h' : Builds rule tree table queue links log' final') : log' = log ∧ final' = final := by
  induction h generalizing log' with
  | done =>
    cases h'
    exact ⟨rfl, rfl⟩
  | visit children _ ih =>
    obtain _ | ⟨children', later⟩ := h'
    obtain ⟨rfl, rfl⟩ := children.unique children'
    obtain ⟨rfl, rfl⟩ := ih later
    exact ⟨rfl, rfl⟩

end Unique

/-! What is read. -/

def ReadsWithin (rule : LinkRule) (d : Dictionary) (st : List Char → Nat) (length : Nat)
    (reads : List (Nat × Nat)) : Prop :=
  ∀ r ∈ reads, ∃ w, d.isStem w = true ∧ w ≠ [] ∧ w.length ≤ length ∧ r.1 = st w ∧
    r.2 = target st (d.fallback rule w)

variable {e : Encoding} {d : Dictionary} {st : List Char → Nat} {links : FailureLinks}
  {rule : LinkRule} {done : List Char → Prop} {p : Nat} {n : Node} {v : List Char}

theorem ReadsWithin.cons {length shorter : Nat} {reads : List (Nat × Nat)}
    (h : ReadsWithin rule d st shorter reads) (less : shorter ≤ length) {w : List Char}
    (stem : d.isStem w = true) (hw : w ≠ []) (hle : w.length ≤ length) {state : Nat}
    (hstate : state = st w) :
    ReadsWithin rule d st length ((state, target st (d.fallback rule w)) :: reads) := by
  refine List.forall_mem_cons.mpr ⟨⟨w, stem, hw, hle, hstate, rfl⟩, fun r hr => ?_⟩
  obtain ⟨u, hu, hne, short, read⟩ := h r hr
  exact ⟨u, hu, hne, Nat.le_trans short less, read⟩

theorem LinksTo.follows {a : DoubleArray} (h : links.LinksTo rule a d st done)
    (rep : a.Represents d st) (c : Char) (tries : Nat) {u : List Char} (stem : d.isStem u = true)
    (ready : ∀ w, d.isStem w = true → w.length ≤ u.length → done w) (enough : u.length < tries) :
    ∃ reads, ReadsWithin rule d st u.length reads ∧
      Follows rule a links c.toNat (target st u) reads
        (follow rule a links c.toNat tries (target st u)) := by
  induction tries generalizing u with
  | zero => exact absurd enough (Nat.not_lt_zero _)
  | succ tries ih =>
    rw [follow]
    cases next : a.next? (if target st u = rootState then startState else target st u) c.toNat with
    | some _ => exact ⟨[], by simp [ReadsWithin], .edge next⟩
    | none =>
      by_cases stuck : rule = .parentOnly ∨ target st u = rootState
      · simp only [if_pos stuck]
        exact ⟨[], by simp [ReadsWithin], .stuck next stuck⟩
      · obtain ⟨hu, linked, shorter⟩ := h.moves rep stem (ready u stem (Nat.le_refl _)) fun root =>
          stuck (.inr root)
        obtain ⟨reads, within, follows⟩ := ih (isStem_fallback d rule u)
          (fun w hw hle => ready w hw (by omega)) (by omega)
        simp only [if_neg stuck, link, linked, Option.getD_some]
        exact ⟨_, within.cons (Nat.le_of_lt shorter) stem hu (Nat.le_refl _) (target_of_ne hu),
          .link next stuck linked follows⟩

theorem LinksTo.linksChildren (h : links.LinksTo rule e.table d st done) (fin : e.Finished d st)
    (hn : e.tree.nodes[p]? = some n) (hw : n.Covers d v) (hv : v ≠ [])
    (ready : ∀ u, d.isStem u = true → u.length ≤ v.length → done u) {ms : List Node}
    (children : ∀ m ∈ ms, m ∈ e.tree.inner n.children) :
    ∃ log, log.map Entry.state = ms.map Node.state ∧
      (∀ entry ∈ log, ReadsWithin rule d st v.length entry.reads) ∧
      LinksChildren rule e.table n ms links log
        (ms.foldl (FailureLinks.linkChild rule e.table n) links) := by
  induction ms generalizing links done with
  | nil => exact ⟨[], rfl, by simp, .nil⟩
  | cons m ms ih =>
    obtain ⟨hm, children⟩ := List.forall_mem_cons.mp children
    obtain ⟨c, hc, _⟩ := child_facts fin hn hw hm
    have state := fin.state_eq hn hw
    have shorter := d.length_fallback_lt rule hv
    have linked := h.linked hw.isStem hv (ready v hw.isStem (Nat.le_refl _))
    rw [← state] at linked
    obtain ⟨reads, within, follows⟩ := h.follows fin.represents c n.depth
      (isStem_fallback d rule v) (fun w hw hle => ready w hw (by omega))
      (by rw [hw.depth]; exact shorter)
    have next := h.linkChild fin hn hw hv ready hm
    obtain ⟨log, states, all, later⟩ := ih next (fun u hu hle => .inl (ready u hu hle)) children
    have value : FailureLinks.linkChild rule e.table n links m = links.setIfInBounds m.state
        (follow rule e.table links c.toNat n.depth (target st (d.fallback rule v))) := by
      rw [FailureLinks.linkChild, link, linked, hc, Option.getD_some]
    rw [value] at later
    rw [← hc] at follows later
    have reading := within.cons (Nat.le_of_lt shorter) hw.isStem hv (Nat.le_refl _) state
    refine ⟨⟨m.state, _⟩ :: log, congrArg (m.state :: ·) states,
      List.forall_mem_cons.mpr ⟨reading, all⟩, ?_⟩
    rw [List.foldl_cons, value, ← hc]
    exact .cons linked follows later

/-! The queue and the log. -/

/-- What an entry reads is known or was written for an entry before it, and stays as it is. -/
def ReadsKnown (final : FailureLinks) (known : List Nat) (log : List Entry) : Prop :=
  ∀ before entry after, log = before ++ entry :: after → ∀ r ∈ entry.reads,
    r.1 ∈ known ++ before.map Entry.state ∧ final[r.1]? = some r.2

theorem ReadsKnown.append {final : FailureLinks} {known : List Nat} {block later : List Entry}
    (reads : ∀ entry ∈ block, ∀ r ∈ entry.reads, r.1 ∈ known ∧ final[r.1]? = some r.2)
    (h : ReadsKnown final (known ++ block.map Entry.state) later) :
    ReadsKnown final known (block ++ later) := by
  intro before entry after split r hr
  rcases List.append_eq_append_iff.mp split with ⟨between, rfl, rest⟩ | ⟨within, rfl, rest⟩
  · rw [List.map_append, ← List.append_assoc]
    exact h between entry after rest r hr
  · cases within with
    | nil =>
      rw [List.append_nil] at h
      exact List.append_nil (known ++ _) ▸ h [] entry after rest.symm r hr
    | cons other within =>
      cases rest
      obtain ⟨there, value⟩ := reads entry (by simp) r hr
      exact ⟨List.mem_append_left _ there, value⟩

theorem mem_states_iff (fin : e.Finished d st) {s : Nat} :
    s ∈ (linkOrder e.tree).toList.map Node.state ↔
      ∃ w, d.isStem w = true ∧ w ≠ [] ∧ s = st w := by
  have order := ordered_linkOrder fin
  rw [List.mem_map]
  constructor
  · rintro ⟨n, hn, rfl⟩
    obtain ⟨p, w, hp, hw, pos⟩ := order.node n hn
    exact ⟨w, hw.isStem, List.length_pos_iff.mp pos, fin.state_eq hp hw⟩
  · rintro ⟨w, stem, hw, rfl⟩
    have room := length_lt_nodes fin stem
    obtain ⟨n, hn, hnw⟩ := order.all w stem (List.length_pos_iff.mpr hw) (by omega)
    obtain ⟨p, _, hp, _⟩ := order.node n hn
    exact ⟨n, hn, fin.state_eq hp hnw⟩

theorem nodup_states (fin : e.Finished d st) :
    ((linkOrder e.tree).toList.map Node.state).Nodup := by
  have order := ordered_linkOrder fin
  refine List.pairwise_map.mpr (order.distinct.imp_of_mem fun {n m} hn hm apart same => ?_)
  obtain ⟨p, v, hp, hv, _⟩ := order.node n hn
  obtain ⟨q, w, hq, hw, _⟩ := order.node m hm
  rw [fin.state_eq hp hv, fin.state_eq hq hw] at same
  exact apart v hv (fin.represents.inj hv.isStem hw.isStem same ▸ hw)

theorem state_known (fin : e.Finished d st) {first : List Node} (level : Level e d 1 first)
    {visited later : List Node} (order : (linkOrder e.tree).toList = visited ++ later)
    {w : List Char} (stem : d.isStem w = true) (hw : w ≠ []) (linked : Linked e d visited w) :
    st w ∈ (first ++ visited.flatMap fun n => e.tree.inner n.children).map Node.state := by
  rcases linked with short | ⟨n, hn, m, hm, hmw⟩
  · have one := Nat.le_antisymm short (List.length_pos_iff.mpr hw)
    obtain ⟨n, hn, hnw⟩ := level.all w stem one
    obtain ⟨p, _, hp, _⟩ := level.node n hn
    exact List.mem_map.mpr ⟨n, List.mem_append_left _ hn, fin.state_eq hp hnw⟩
  · obtain ⟨p, v, hp, hv, _⟩ := (ordered_linkOrder fin).node n (by simp [order, hn])
    obtain ⟨_, _, _, _, q, hq⟩ := child_facts fin hp hv hm
    have below : m ∈ visited.flatMap fun n => e.tree.inner n.children :=
      List.mem_flatMap.mpr ⟨n, hn, hm⟩
    exact List.mem_map.mpr ⟨m, List.mem_append_right first below, fin.state_eq hq hmw⟩

theorem exists_builds (fin : e.Finished d st) {first : List Node} (level : Level e d 1 first)
    {queue visited later : List Node} (queued : Queued e.tree queue later)
    (order : (linkOrder e.tree).toList = visited ++ later) :
    ∃ log, Builds rule e.tree e.table queue
        (visited.foldl (FailureLinks.linkChildren rule e.tree e.table)
          (Array.replicate e.table.size rootState)) log (ofEncoding rule e) ∧
      log.map Entry.state = (later.flatMap fun n => e.tree.inner n.children).map Node.state ∧
      ReadsKnown (ofEncoding rule e)
        ((first ++ visited.flatMap fun n => e.tree.inner n.children).map Node.state) log := by
  induction queued generalizing visited with
  | done =>
    rw [List.append_nil] at order
    refine ⟨[], ?_, rfl, by simp [ReadsKnown]⟩
    rw [ofEncoding, ← Array.foldl_toList, order]
    exact .done
  | @next n queue later _ ih =>
    have links := linksTo_visited rule fin order
    obtain ⟨p, v, hn, hv, pos⟩ := (ordered_linkOrder fin).node n (by simp [order])
    have ready := linked_of_le fin order hv
    obtain ⟨block, states, within, children⟩ := links.linksChildren fin hn hv
      (List.length_pos_iff.mp pos) ready fun _ hm => hm
    have next := order
    rw [List.append_cons] at next
    obtain ⟨log, builds, later_states, known⟩ := ih next
    rw [List.foldl_append] at builds
    rw [List.flatMap_append, List.flatMap_singleton, ← List.append_assoc, List.map_append,
      ← states] at known
    refine ⟨block ++ log, .visit children builds, ?_, ReadsKnown.append ?_ known⟩
    · rw [List.map_append, states, later_states, List.flatMap_cons, List.map_append]
    · intro entry hentry r hr
      obtain ⟨w, stem, hw, hle, state, link⟩ := within entry hentry r hr
      rw [state, link]
      exact ⟨state_known fin level order stem hw (ready w stem hle),
        (linksTo_ofEncoding rule fin).linked stem hw trivial⟩

/-- The loop that finds the links has one end. Every state but that of the start is put into its
queue once, and a link is read only when it has been written for good. -/
theorem exists_log (rule : LinkRule) (fin : e.Finished d st) :
    ∃ root log, e.tree.nodes[PrefixTree.rootId]? = some root ∧
      let first := e.tree.inner root.children
      (∀ log' final, Builds rule e.tree e.table first
        (Array.replicate e.table.size rootState) log' final ↔
          log' = log ∧ final = ofEncoding rule e) ∧
      (first.map Node.state ++ log.map Entry.state).Nodup ∧
      (∀ state, state ∈ first.map Node.state ++ log.map Entry.state ↔
        ∃ w, d.isStem w = true ∧ w ≠ [] ∧ state = st w) ∧
      ReadsKnown (ofEncoding rule e) (first.map Node.state) log := by
  obtain ⟨root, hroot, _⟩ := fin.tree.root
  have level := (level_root fin hroot).next fin
  rw [List.flatMap_singleton] at level
  have queued := queued_linkOrder fin hroot
  obtain ⟨log, builds, states, known⟩ := exists_builds fin level queued (List.nil_append _).symm
  have order : (e.tree.inner root.children).map Node.state ++ log.map Entry.state =
      (linkOrder e.tree).toList.map Node.state := by
    rw [states, ← List.map_append, ← queued.eq_append]
  rw [List.flatMap_nil, List.append_nil] at known
  refine ⟨root, log, hroot, fun log' final => ⟨builds.unique, ?_⟩, ?_, fun state => ?_, known⟩
  · rintro ⟨rfl, rfl⟩
    exact builds
  · rw [order]
    exact nodup_states fin
  · rw [order]
    exact mem_states_iff fin

end FailureLinks

namespace Automaton

variable {a : Automaton} {rule : LinkRule} {d : Dictionary} {st : List Char → Nat} {w : List Char}

theorem Retries.unique {code state : Nat} {result result' : Option Nat}
    (h : a.Retries code state result) (h' : a.Retries code state result') : result' = result := by
  induction h with
  | edge next =>
    cases h' with
    | edge next' => exact next'.symm.trans next
    | stuck none => cases none.symm.trans next
    | retreat none => cases none.symm.trans next
  | stuck none =>
    cases h' with
    | edge next => cases none.symm.trans next
    | stuck => rfl
    | retreat _ moves => exact absurd rfl moves
  | retreat none moves _ ih =>
    cases h' with
    | edge next => cases none.symm.trans next
    | stuck => exact absurd rfl moves
    | retreat _ _ later => exact ih later

theorem Compiled.retries (h : a.Compiled rule d st) (c : Char) (tries : Nat)
    (stem : d.isStem w = true) (enough : w.length < tries) :
    a.Retries c.toNat (st w) (a.advance? c.toNat tries (st w)) := by
  induction tries generalizing w with
  | zero => exact absurd enough (Nat.not_lt_zero _)
  | succ tries ih =>
    rw [advance?]
    cases next : a.table.next? (st w) c.toNat with
    | some target => exact .edge next
    | none =>
      by_cases start : st w = startState
      · simp only [if_pos start]
        rw [start] at next ⊢
        exact .stuck next
      · obtain ⟨hw, retreat, shorter⟩ := h.moves stem start
        have later := ih (isStem_fallback d rule w) (by omega)
        rw [← retreat] at later
        simp only [if_neg start]
        exact .retreat next start later

/-- From the state of a word the start is reached within its length, through states of shorter and
shorter words. -/
theorem Compiled.exists_iterate (h : a.Compiled rule d st) (stem : d.isStem w = true) :
    ∃ n ≤ w.length, a.retreat^[n] (st w) = startState ∧
      (∀ j, 0 < j → j ≤ n → ∃ u, d.isStem u = true ∧ u.length < w.length ∧
        a.retreat^[j] (st w) = st u) ∧
      ∀ i j, i < j → j ≤ n → a.retreat^[i] (st w) ≠ a.retreat^[j] (st w) := by
  induction len : w.length using Nat.strongRecOn generalizing w with
  | ind length ih =>
    by_cases hw : w = []
    · subst hw
      exact ⟨0, Nat.zero_le _, h.table.start, by omega, by omega⟩
    · have shorter := d.length_fallback_lt rule hw
      obtain ⟨n, hn, ends, passed, distinct⟩ :=
        ih _ (len ▸ shorter) (isStem_fallback d rule w) rfl
      have first (j : Nat) : a.retreat^[j + 1] (st w) = a.retreat^[j] (st (d.fallback rule w)) := by
        rw [Function.iterate_succ_apply, h.retreat_eq stem hw]
      have words : ∀ j, 0 < j → j ≤ n + 1 → ∃ u, d.isStem u = true ∧ u.length < length ∧
          a.retreat^[j] (st w) = st u := by
        intro j pos hj
        obtain ⟨j, rfl⟩ := Nat.exists_eq_succ_of_ne_zero (Nat.ne_of_gt pos)
        rw [first]
        rcases Nat.eq_zero_or_pos j with rfl | later
        · exact ⟨_, isStem_fallback d rule w, len ▸ shorter, rfl⟩
        · obtain ⟨u, hu, hlt, state⟩ := passed j later (Nat.le_of_succ_le_succ hj)
          exact ⟨u, hu, by omega, state⟩
      refine ⟨n + 1, by omega, (first n).trans ends, words, fun i j hij hj => ?_⟩
      cases i with
      | zero =>
        obtain ⟨u, hu, hlt, state⟩ := words j hij hj
        rw [state]
        intro same
        cases h.table.inj stem hu same
        omega
      | succ i =>
        obtain ⟨j, rfl⟩ := Nat.exists_eq_succ_of_ne_zero (Nat.ne_of_gt (Nat.zero_lt_of_lt hij))
        rw [first, first]
        exact distinct i j (Nat.lt_of_succ_lt_succ hij) (Nat.le_of_succ_le_succ hj)

end Automaton

namespace FailureLinks

/-- Both loops over links end. From every state that stands for a word the start is reached within
the length of the word, and no state is met twice, so reading a code point ends; the states kept
while a line is read are such states. Finding the links ends too: every state but that of the start
is put into the queue once, and a link is read only when it has been written for good. -/
theorem chains_end (s : Settings) (d : Dictionary) :
    let a := Automaton.ofDictionary s d
    let e := Encoding.ofDictionary s.growth d
    ∃ st, a.table.Represents d st ∧
      (∀ w, d.isStem w = true → ∃ n ≤ w.length, a.retreat^[n] (st w) = startState ∧
        ∀ i j, i < j → j ≤ n → a.retreat^[i] (st w) ≠ a.retreat^[j] (st w)) ∧
      (∀ w, d.isStem w = true → ∀ (c : Char) (tries : Nat), w.length < tries → ∀ result,
        a.Retries c.toNat (st w) result ↔ result = a.advance? c.toNat tries (st w)) ∧
      (∀ line found k, k ≤ (Decoded.ofBytes line).positions.size → ∃ w, d.isStem w = true ∧
        w.length ≤ k ∧ (a.readFirst (Decoded.ofBytes line).positions found k).state = st w) ∧
      ∃ root log, e.tree.nodes[PrefixTree.rootId]? = some root ∧
        let first := e.tree.inner root.children
        (∀ log' final, Builds s.rule e.tree a.table first
          (Array.replicate a.table.size rootState) log' final ↔ log' = log ∧ final = a.links) ∧
        (first.map Node.state ++ log.map Entry.state).Nodup ∧
        (∀ state, state ∈ first.map Node.state ++ log.map Entry.state ↔
          ∃ w, d.isStem w = true ∧ w ≠ [] ∧ state = st w) ∧
        ReadsKnown a.links (first.map Node.state) log := by
  intro a e
  obtain ⟨st, fin⟩ := Encoding.exists_finished s.growth d
  have compiled : a.Compiled s.rule d st := Automaton.compiled_ofDictionary fin
  refine ⟨st, compiled.table, fun w stem => ?_, fun w stem c tries enough result => ?_,
    fun line found k hk => ?_, ?_⟩
  · obtain ⟨n, hn, ends, _, distinct⟩ := compiled.exists_iterate stem
    exact ⟨n, hn, ends, distinct⟩
  · have ends := compiled.retries c tries stem enough
    exact ⟨ends.unique, fun same => same ▸ ends⟩
  · have agrees := compiled.agrees _ found hk
    exact ⟨_, agrees.stem, agrees.length_le, agrees.state⟩
  · have facts := exists_log s.rule fin
    rw [← Automaton.table_ofDictionary, ← Automaton.links_ofDictionary] at facts
    exact facts

end FailureLinks

end KeywordTagger
