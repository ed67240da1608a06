import NginB.HeadersMore.Configuration

/-! # The commands of nested levels

The commands of a location stand in one array behind those of the levels around it. They are moved to its
end first, the last one before the others, so that none is written over before it has been moved.
-/
namespace NginB.HeadersMore

section Arrays
variable {α : Type} {garbage : α} {cmd prevCmd cs : List α} {k m : ℕ}

theorem shift_succ (nelts origLen k : ℕ) : shiftCmds garbage nelts origLen (k + 1) cmd =
    (shiftCmds garbage nelts origLen k cmd).set (nelts - 1 - k)
      ((shiftCmds garbage nelts origLen k cmd).getD (origLen - 1 - k) garbage) := by
  rw [shiftCmds, List.range_succ, List.foldl_append]
  rfl

theorem copy_succ (k : ℕ) : copyCmds garbage prevCmd (k + 1) cmd =
    (copyCmds garbage prevCmd k cmd).set k (prevCmd.getD k garbage) := by
  rw [copyCmds, List.range_succ, List.foldl_append]
  rfl

theorem shift_length (nelts origLen k : ℕ) : (shiftCmds garbage nelts origLen k cmd).length = cmd.length := by
  induction k with
  | zero => rfl
  | succ k ih => rw [shift_succ, List.length_set, ih]

theorem copy_length (k : ℕ) : (copyCmds garbage prevCmd k cmd).length = cmd.length := by
  induction k with
  | zero => rfl
  | succ k ih => rw [copy_succ, List.length_set, ih]

/-- The last `k` commands have been moved by `m` places, and the others stand where they stood. -/
theorem shift_get (hk : k ≤ cs.length) (hm : 0 < m) (j : ℕ) :
    (shiftCmds garbage (cs.length + m) cs.length k (cs ++ List.replicate m garbage))[j]? =
      if cs.length + m - k ≤ j then cs[j - m]? else (cs ++ List.replicate m garbage)[j]? := by
  induction k generalizing j with
  | zero =>
    rw [shiftCmds, List.range_zero, List.foldl_nil]
    split
    · next h => rw [List.getElem?_eq_none (by simp; omega), List.getElem?_eq_none (by omega)]
    · rfl
  | succ k ih =>
    -- the command that is read has not been written over
    have hread : (shiftCmds garbage (cs.length + m) cs.length k
        (cs ++ List.replicate m garbage))[cs.length - 1 - k]? = cs[cs.length - 1 - k]? := by
      rw [ih (by omega), if_neg (by omega), List.getElem?_append_left (by omega)]
    rw [shift_succ, List.getElem?_set, shift_length, List.getD_eq_getElem?_getD, hread]
    by_cases hj : cs.length + m - 1 - k = j
    · have hsub : j - m = cs.length - 1 - k := by omega
      have hlt : cs.length - 1 - k < cs.length := by omega
      rw [if_pos hj, if_pos (by simp; omega), if_pos (by omega), hsub, List.getElem?_eq_getElem hlt, Option.getD_some]
    · rw [if_neg hj, ih (by omega)]
      by_cases hle : cs.length + m - k ≤ j
      · rw [if_pos hle, if_pos (by omega)]
      · rw [if_neg hle, if_neg (by omega)]

theorem copy_get (hk : k ≤ cmd.length) (hk' : k ≤ prevCmd.length) (j : ℕ) :
    (copyCmds garbage prevCmd k cmd)[j]? = if j < k then prevCmd[j]? else cmd[j]? := by
  induction k with
  | zero => rfl
  | succ k ih =>
    have hlt : k < prevCmd.length := by omega
    rw [copy_succ, List.getElem?_set, copy_length, ih (by omega) (by omega), List.getD_eq_getElem?_getD]
    by_cases hj : k = j
    · rw [if_pos hj, if_pos (by omega), if_pos (by omega), ← hj, List.getElem?_eq_getElem hlt, Option.getD_some]
    · rw [if_neg hj]
      by_cases hlt : j < k
      · rw [if_pos hlt, if_pos (by omega)]
      · rw [if_neg hlt, if_neg (by omega)]

/-- The commands of the level around it come first. -/
theorem merge_eq (prev conf : Option (List α)) :
    (ngxHttpHeadersMoreMergeLocConf garbage prev conf).getD [] = prev.getD [] ++ conf.getD [] := by
  rw [ngxHttpHeadersMoreMergeLocConf]
  by_cases hconf : (conf.getD []).length = 0
  · rw [if_pos hconf, List.length_eq_zero_iff.mp hconf, List.append_nil]
  · rw [if_neg hconf]
    by_cases hprev : (prev.getD []).length = 0
    · rw [if_pos hprev, List.length_eq_zero_iff.mp hprev, List.nil_append]
    · rw [if_neg hprev]
      generalize prev.getD [] = ps at hprev
      generalize conf.getD [] = cs
      dsimp only
      rw [Option.getD_some, List.length_append, List.length_replicate]
      refine List.ext_getElem? fun j => ?_
      rw [copy_get (by rw [shift_length]; simp) (Nat.le_refl _), shift_get (Nat.le_refl _) (by omega)]
      by_cases hj : j < ps.length
      · rw [if_pos hj, List.getElem?_append_left hj]
      · rw [if_neg hj, if_pos (by omega), List.getElem?_append_right (by omega)]

end Arrays

section Levels
variable {υ : Type} {eval : HeadersOut → υ → Option (List UInt8)} {atosz : List UInt8 → Option ℕ}
  {r : HeadersOut}

/-- The commands of the levels, from the outermost one on, each level on its own. -/
def runLevels (eval : HeadersOut → υ → Option (List UInt8)) (atosz : List UInt8 → Option ℕ)
    (r : HeadersOut) : List (List (Cmd υ)) → Rc × HeadersOut
  | [] => (.ok, r)
  | cmds :: levels =>
    let out := ngxHttpHeadersMoreFilter eval atosz r cmds
    if out.1 = .ok then runLevels eval atosz out.2 levels else out

theorem filter_append (cmds cmds' : List (Cmd υ)) : ngxHttpHeadersMoreFilter eval atosz r (cmds ++ cmds') =
    let out := ngxHttpHeadersMoreFilter eval atosz r cmds
    if out.1 = .ok then ngxHttpHeadersMoreFilter eval atosz out.2 cmds' else out := by
  induction cmds generalizing r with
  | nil => rfl
  | cons cmd cmds ih =>
    rw [List.cons_append, ngxHttpHeadersMoreFilter, ngxHttpHeadersMoreFilter]
    split
    · exact ih
    · dsimp only
      split
      · exact ih
      · rfl

theorem filter_flatten (levels : List (List (Cmd υ))) :
    ngxHttpHeadersMoreFilter eval atosz r levels.flatten = runLevels eval atosz r levels := by
  induction levels generalizing r with
  | nil => rfl
  | cons cmds levels ih =>
    rw [List.flatten_cons, filter_append, runLevels]
    simp only [ih]

theorem merge_levels (garbage : Cmd υ) (main : Option (List (Cmd υ))) (levels : List (Option (List (Cmd υ)))) :
    (levels.foldl (ngxHttpHeadersMoreMergeLocConf garbage) main).getD [] =
      ((main :: levels).map fun conf => conf.getD []).flatten := by
  induction levels generalizing main with
  | nil => simp
  | cons conf levels ih =>
    rw [List.foldl_cons, ih, List.map_cons, List.flatten_cons, merge_eq]
    simp

/-- A location does what the levels do, from the outermost one to its own. -/
theorem levels_run (garbage : Cmd υ) (main : Option (List (Cmd υ))) (levels : List (Option (List (Cmd υ)))) :
    ngxHttpHeadersMoreFilter eval atosz r ((levels.foldl (ngxHttpHeadersMoreMergeLocConf garbage) main).getD []) =
      runLevels eval atosz r ((main :: levels).map fun conf => conf.getD []) := by
  rw [merge_levels, filter_flatten]

end Levels

end NginB.HeadersMore
