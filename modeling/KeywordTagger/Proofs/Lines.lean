import KeywordTagger.Text.Line
import Mathlib.Data.List.Induction

/-!
Lines as a split. The bytes of a text are cut after each line feed, each line has one line feed, at
its end, and only a last line that is not empty has none.
-/

namespace KeywordTagger.Text

/-- A text is some lines: each ends with its first line feed, and what follows the last line feed is
a line unless it is empty. -/
inductive SplitsInto : ByteArray → List ByteArray → Prop where
  | none : SplitsInto .empty []
  | rest {line : ByteArray} : line ≠ .empty → lineFeed ∉ line.data → SplitsInto line [line]
  | line {body later : ByteArray} {lines : List ByteArray} : lineFeed ∉ body.data →
      SplitsInto later lines →
      SplitsInto (body.push lineFeed ++ later) (body.push lineFeed :: lines)

variable {bytes : ByteArray} {start i : Nat}

theorem extract_succ (hs : start ≤ i) (hi : i < bytes.size) :
    bytes.extract start (i + 1) = (bytes.extract start i).push bytes[i] := by
  apply ByteArray.ext
  have pushed : (bytes.data.extract start i).push bytes.data[i] =
      bytes.data.extract (min start i) (i + 1) := Array.push_extract_getElem hi
  rw [Nat.min_eq_left hs] at pushed
  simp only [ByteArray.data_extract, ByteArray.data_push]
  exact pushed.symm

theorem linesFrom_splits (found : Array ByteArray) (hs : start ≤ i) (hi : i ≤ bytes.size)
    (plain : lineFeed ∉ (bytes.extract start i).data) :
    ∃ lines, linesFrom bytes start i found = found ++ lines.toArray ∧
      SplitsInto (bytes.extract start bytes.size) lines := by
  fun_induction linesFrom bytes start i found with
  | case1 start i found hlt feed ih =>
    obtain ⟨lines, heq, later⟩ := ih (Nat.le_refl _) hlt (by simp)
    have line := extract_succ hs hlt
    rw [feed] at line
    refine ⟨bytes.extract start (i + 1) :: lines, by simp [heq], ?_⟩
    rw [ByteArray.extract_eq_extract_append_extract (i + 1) (by omega) hlt, line]
    exact .line plain later
  | case2 start i found hlt other ih =>
    refine ih (by omega) hlt ?_
    rw [extract_succ hs hlt, ByteArray.data_push, Array.mem_push]
    exact fun h => h.elim plain fun heq => other heq.symm
  | case3 start i found hend hlt =>
    have hsize : i = bytes.size := by omega
    rw [hsize] at plain
    refine ⟨[bytes.extract start bytes.size], rfl, .rest ?_ plain⟩
    rw [ne_eq, ByteArray.extract_eq_empty_iff]
    omega
  | case4 start i found hend hle =>
    have nothing : bytes.extract start bytes.size = .empty :=
      ByteArray.extract_eq_empty_iff.mpr (by omega)
    exact ⟨[], (Array.append_empty).symm, nothing ▸ .none⟩

theorem splitsInto_lines (bytes : ByteArray) : SplitsInto bytes (lines bytes).toList := by
  obtain ⟨found, heq, splits⟩ := linesFrom_splits #[] (Nat.le_refl 0) (Nat.zero_le bytes.size)
    (by simp)
  rw [ByteArray.extract_zero_size] at splits
  rwa [lines, heq, Array.empty_append]

/-! Parts of a text. -/

theorem join_append (xs ys : List ByteArray) :
    join (xs ++ ys).toArray = join xs.toArray ++ join ys.toArray := by
  induction ys using List.reverseRecOn with
  | nil => rw [List.append_nil, join_empty, ByteArray.append_empty]
  | append_singleton ys y ih =>
    rw [← List.append_assoc, ← List.push_toArray, ← List.push_toArray, join_push, join_push, ih,
      ByteArray.append_assoc]

theorem join_cons (part : ByteArray) (parts : List ByteArray) :
    join (part :: parts).toArray = part ++ join parts.toArray := by
  have single : join #[part] = part := (join_push #[] part).trans ByteArray.empty_append
  rw [← List.singleton_append, join_append, single]

/-- Two lists that have `a` are the same if they are the same before and after its first place. -/
theorem split_unique {α : Type} {a : α} {xs xs' ys ys' : List α} (hxs : a ∉ xs) (hxs' : a ∉ xs')
    (h : xs ++ a :: ys = xs' ++ a :: ys') : xs = xs' ∧ ys = ys' := by
  rcases List.append_eq_append_iff.mp h with ⟨zs, rfl, heq⟩ | ⟨zs, rfl, heq⟩
  all_goals
    cases zs with
    | nil =>
      cases heq
      exact ⟨by simp, rfl⟩
    | cons z zs =>
      cases heq
      simp at hxs hxs'

theorem toList_line (body later : ByteArray) : (body.push lineFeed ++ later).data.toList =
    body.data.toList ++ lineFeed :: later.data.toList := by
  simp

theorem SplitsInto.line_inv {body later : ByteArray} {lines : List ByteArray}
    (h : SplitsInto (body.push lineFeed ++ later) lines) (plain : lineFeed ∉ body.data) :
    ∃ rest, lines = body.push lineFeed :: rest ∧ SplitsInto later rest := by
  have bytes := toList_line body later
  generalize body.push lineFeed ++ later = text at h bytes
  cases h with
  | none => simp at bytes
  | rest _ none =>
    have feed : lineFeed ∈ text.data.toList := bytes ▸ List.mem_append_right _ List.mem_cons_self
    exact absurd (Array.mem_toList_iff.mp feed) none
  | @line body' later' rest plain' splits =>
    rw [toList_line] at bytes
    obtain ⟨hbody, hlater⟩ := split_unique (mt Array.mem_toList_iff.mp plain')
      (mt Array.mem_toList_iff.mp plain) bytes
    cases ByteArray.ext (Array.toList_inj.mp hbody)
    cases ByteArray.ext (Array.toList_inj.mp hlater)
    exact ⟨rest, rfl, splits⟩

/-- The lines that have their line feed stay the first lines, whatever follows. -/
theorem SplitsInto.prefix_of_terminated {before after : ByteArray} {first lines : List ByteArray}
    (h : SplitsInto before first) (whole : SplitsInto (before ++ after) lines) :
    first.filter isTerminated <+: lines := by
  induction h generalizing lines with
  | none => exact List.nil_prefix
  | @rest line _ plain =>
    have unended : isTerminated line = false := by
      rw [isTerminated, decide_eq_false_iff_not]
      exact fun feed => plain (Array.mem_of_back? feed)
    rw [List.filter_cons_of_neg (by simp [unended])]
    exact List.nil_prefix
  | @line body later first plain _ ih =>
    rw [ByteArray.append_assoc] at whole
    obtain ⟨rest, rfl, splits⟩ := whole.line_inv plain
    have closed : isTerminated (body.push lineFeed) = true := by
      simp [isTerminated]
    rw [List.filter_cons_of_pos closed]
    exact List.prefix_cons_inj _ |>.mpr (ih splits)

end KeywordTagger.Text
