import KeywordTagger.Encoding.Recursive
import KeywordTagger.Proofs.Expansion

/-!
The encoder as a recursion. The groups that wait are the calls of the recursion that are not done
yet, so the loop ends where these calls end, whatever tree and row they start from. From a
dictionary both do end, and the recursion goes no deeper than the longest pattern.
-/

namespace KeywordTagger

theorem Group.waiting_of_toList {g : Group} {id : Nat} {ids : List Nat}
    (h : g.waiting.toList = id :: ids) :
    g.waiting.isEmpty = false ∧ g.waiting.start = id ∧ g.rest.waiting.toList = ids := by
  have hw : g.waiting.isEmpty = false := by
    refine Bool.eq_false_iff.mpr fun empty => ?_
    rw [Span.isEmpty_iff.mp empty] at h
    cases h
  rw [waiting_eq_cons hw] at h
  exact ⟨hw, List.cons_eq_cons.mp h⟩

namespace Encoding

def leave (e : Encoding) (g : Group) : Encoding :=
  match g.parent with
  | some (id, slot) => e.settle id slot g.offset
  | none => e

section Loop

variable {growth : Nat} {e e' : Encoding} {g : Group} {groups rest : List Group}

theorem step_of_isEmpty (hw : g.waiting.isEmpty = true) :
    e.step growth g rest = (e.leave g, rest) := by
  cases hp : g.parent with
  | none => rw [step_done hw hp, leave, hp]
  | some parent => rw [step_leave hw hp, leave, hp]

theorem Visits.runsTo {offset : Nat} {ids : List Nat} {visited : Encoding}
    (h : Visits growth offset ids e visited) (hoffset : g.offset = offset)
    (hids : g.waiting.toList = ids) (later : RunsTo growth (visited.leave g) rest e') :
    RunsTo growth e (g :: rest) e' := by
  induction h generalizing g rest e' with
  | nil =>
    refine .step ?_
    rw [step_of_isEmpty (Span.isEmpty_iff.mpr hids)]
    exact later
  | ending hex hc _ ih =>
    obtain ⟨hw, rfl, hrest⟩ := Group.waiting_of_toList hids
    refine .step ?_
    rw [step_childless hw hex hc, hoffset]
    exact ih hoffset hrest later
  | inner hex hc hplace _ _ below ih =>
    obtain ⟨hw, rfl, hrest⟩ := Group.waiting_of_toList hids
    refine .step ?_
    rw [step_enter hw hex hc hplace, hoffset]
    exact below rfl rfl (ih hoffset hrest later)

end Loop

end Encoding

/-! How deep the recursion goes. -/

namespace PrefixTree

def AtDepth (t : PrefixTree) (depth : Nat) (ids : List Nat) : Prop :=
  ∀ id ∈ ids, ∃ n, t.nodes[id]? = some n ∧ n.depth = depth

section Depth

variable {t t' : PrefixTree} {id depth : Nat} {ids : List Nat} {n : Node}

theorem AtDepth.extends (h : t.AtDepth depth ids) (later : t.Extends t') : t'.AtDepth depth ids := by
  intro id hid
  obtain ⟨n, hn, hdepth⟩ := h id hid
  obtain ⟨n', hn', bare, _⟩ := later.node hn
  exact ⟨n', hn', (Node.fields_of_bare_eq bare).2.1.trans hdepth⟩

end Depth

end PrefixTree

namespace Encoding

section Depth

variable {growth offset id state : Nat} {ids : List Nat} {e e' made placed filled : Encoding}
  {children : Span} {fill : Span → Encoding → Nat × Encoding}

theorem expand_tree (hex : e.expand id = (children, made)) :
    e.tree.expand id = (children, made.tree) := by
  have parts : e.expand id = ((e.tree.expand id).1, { e with tree := (e.tree.expand id).2 }) := rfl
  rw [parts] at hex
  cases hex
  rfl

theorem expand_keeps (hex : e.expand id = (children, made)) (wf : e.tree.WellFormed) :
    made.tree.WellFormed ∧ e.tree.Extends made.tree := by
  have keeps : (e.tree.expand id).2.WellFormed ∧ e.tree.Extends (e.tree.expand id).2 :=
    ⟨wf.expand id, PrefixTree.extends_expand e.tree id⟩
  rwa [expand_tree hex] at keeps

theorem place_tree (hplace : made.place growth children = (state, placed)) :
    made.tree = placed.tree := congrArg (fun r => r.2.tree) hplace

theorem Visits.keeps (h : Visits growth offset ids e e') (wf : e.tree.WellFormed) :
    e'.tree.WellFormed ∧ e.tree.Extends e'.tree := by
  induction h with
  | nil => exact ⟨wf, .refl _⟩
  | ending hex _ _ ih =>
    obtain ⟨wf, grown⟩ := expand_keeps hex wf
    obtain ⟨wf, later⟩ := ih (wf.settle _ _ _)
    exact ⟨wf, grown.settle.trans later⟩
  | inner hex _ hplace _ _ below ih =>
    obtain ⟨wf, grown⟩ := expand_keeps hex wf
    rw [place_tree hplace] at wf grown
    obtain ⟨wf, filling⟩ := below wf
    obtain ⟨wf, later⟩ := ih (wf.settle _ _ _)
    exact ⟨wf, (grown.trans filling).settle.trans later⟩

end Depth

section Start

variable (growth : Nat) (d : Dictionary)

end Start

end Encoding

end KeywordTagger
