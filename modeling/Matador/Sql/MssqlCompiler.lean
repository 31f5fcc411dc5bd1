import Matador.Sql.Rebuild

/-!
# The MSSQL compiler and the list it walks over

`compile` walks over a `std::list` with an iterator while the compiler erases the limit and inserts
it behind its command. Here the list is one of nodes, `token` gives the token of a node and an
iterator is a node, or `none` at the end.
-/

namespace Matador.Sql.MssqlCompiler

open List
open SqlToken (isTop exists_of_isTop)

variable {ν : Type} [DecidableEq ν]

structure State (ν : Type) where
  tokens : List ν
  current : Option ν
  commands : List ν
  /-- the nodes that have been visited -/
  visited : List ν

/-- The iterator behind `x`. -/
def next (tokens : List ν) (x : ν) : Option ν := (tokens.dropWhile (· ≠ x)).tail.head?

def visit (s : State ν) (x : ν) : SqlToken → State ν
  | .command .select | .command .update | .command .remove => { s with commands := x :: s.commands }
  | .clause (.top _) =>
    match s.commands with
    | [] => s
    | command :: commands =>
        { s with tokens := insertBehind command x (s.tokens.erase x), commands }
  | _ => s

/-- The loop of `basic_dialect_compiler::compile`, with fuel. -/
def loop (token : ν → SqlToken) : Nat → State ν → Option (State ν)
  | 0, s => if s.current = none then some s else none
  | n + 1, s =>
    match s.current with
    | none => some s
    | some x =>
      -- the iterator is moved on before the token is visited
      loop token n
        { visit s x (token x) with current := next s.tokens x, visited := s.visited ++ [x] }

/-- `on_compile_start` empties the stack of the list that has been compiled before. -/
def onCompileStart (s : State ν) : State ν := { s with commands := [] }

def compile (token : ν → SqlToken) (commands tokens : List ν) (n : Nat) : Option (State ν) :=
  loop token n (onCompileStart ⟨tokens, tokens.head?, commands, []⟩)

def isCommand : SqlToken → Bool
  | .command _ => true
  | _ => false

theorem next_append {A C : List ν} {x : ν} (h : x ∉ A) : next (A ++ x :: C) x = C.head? := by
  have hne (a : ν) (ha : a ∈ A) : decide (a ≠ x) := decide_eq_true (ne_of_mem_of_not_mem ha h)
  rw [next, dropWhile_append_of_pos hne]
  simp

/-! ## The list and its copy -/

section

variable {command x : ν} {P Q : List ν}

theorem insertBehind_append (h : command ∈ P) :
    insertBehind command x (P ++ Q) = insertBehind command x P ++ Q := by
  induction P with
  | nil => cases h
  | cons y P ih =>
    rw [cons_append, insertBehind, insertBehind]
    split
    · rfl
    · next hne => rw [ih ((mem_cons.mp h).resolve_left (Ne.symm hne)), cons_append]

theorem insertBehind_perm (h : command ∈ P) : insertBehind command x P ~ P ++ [x] := by
  induction P with
  | nil => cases h
  | cons y P ih =>
    rw [cons_append, insertBehind]
    split
    · exact (perm_append_singleton x P).symm.cons y
    · next hne => exact (ih ((mem_cons.mp h).resolve_left (Ne.symm hne))).cons y

end

/-- A visit makes of the list what it makes of the copy, behind which the other tokens are still to
come. -/
theorem visit_eq_visitMssql {s : CompileState} {i : Nat} (Q V : List Nat) (current : Option Nat)
    (hi : i ∉ s.tokens) (hcom : s.commands ⊆ s.tokens) (t : SqlToken) :
    visit ⟨s.tokens ++ i :: Q, current, s.commands, V⟩ i t =
        ⟨(s.visitMssql i t).tokens ++ Q, current, (s.visitMssql i t).commands, V⟩ ∧
      (s.visitMssql i t).tokens ~ s.tokens ++ [i] ∧
      (s.visitMssql i t).commands ⊆ (s.visitMssql i t).tokens := by
  have hsub : s.commands ⊆ s.tokens ++ [i] := subset_append_of_subset_left _ hcom
  unfold visit CompileState.visitMssql CompileState.keep
  split
  · simp [hsub]
  · simp [hsub]
  · simp [hsub]
  · cases hstack : s.commands with
    | nil => simp
    | cons command commands =>
      rw [hstack, cons_subset] at hcom
      have hera : (s.tokens ++ i :: Q).erase i = s.tokens ++ Q := by
        rw [erase_append_right _ hi, erase_cons_head]
      have hper := insertBehind_perm (x := i) hcom.1
      refine ⟨?_, hper, fun c hc => hper.mem_iff.mpr (mem_append_left _ (hcom.2 hc))⟩
      simp only [hera, insertBehind_append hcom.1]
  · simp [hsub]

section

variable {db : Database} (hdb : db.compiler = .mssql) (token : Nat → SqlToken)

include hdb

theorem loop_eq_foldlM {s : CompileState} {Q : List Nat} (V : List Nat) (hnd : Q.Nodup)
    (htok : ∀ i ∈ Q, s.sql[i]? = some (token i)) (hnew : ∀ i ∈ Q, i ∉ s.tokens)
    (hcom : s.commands ⊆ s.tokens) :
    ∃ s', Q.foldlM (CompileState.visit db) s = some s' ∧
      loop token Q.length ⟨s.tokens ++ Q, Q.head?, s.commands, V⟩ =
        some ⟨s'.tokens, none, s'.commands, V ++ Q⟩ := by
  induction Q generalizing s V with
  | nil => exact ⟨s, rfl, by rw [append_nil, append_nil]; rfl⟩
  | cons i Q ih =>
    obtain ⟨hi, hnd⟩ := nodup_cons.mp hnd
    rw [forall_mem_cons] at htok hnew
    have hstep : s.visit db i = some (s.visitMssql i (token i)) := by
      simp only [CompileState.visit, htok.1, hdb]
    obtain ⟨hvis, hper, hsub⟩ := visit_eq_visitMssql Q V (some i) hnew.1 hcom (token i)
    obtain ⟨s', hs', hloop⟩ := ih (V ++ [i]) hnd
      (fun j hj => by rw [CompileState.visitMssql_sql]; exact htok.2 j hj)
      (fun j hj hmem => by
        rcases mem_append.mp (hper.mem_iff.mp hmem) with hmem | hmem
        · exact hnew.2 j hj hmem
        · exact hi (mem_singleton.mp hmem ▸ hj))
      hsub
    refine ⟨s', by rw [foldlM_cons, hstep]; exact hs', ?_⟩
    rw [head?_cons, length_cons, loop]
    simp only [hvis, next_append hnew.1]
    rw [hloop, append_assoc, singleton_append]

/-- **The list that is changed on the way ends up as the copied list**, with the same stack of
commands. -/
theorem compile_eq_compile (flags : Flags) (sql : List SqlToken)
    (htok : ∀ i t, sql[i]? = some t → token i = t) (commands : List Nat) :
    ∃ s, Sql.compile db flags sql = some s ∧
      compile token commands (range sql.length) sql.length =
        some ⟨s.tokens, none, s.commands, range sql.length⟩ := by
  have hget (i : Nat) (hi : i ∈ range sql.length) : sql[i]? = some (token i) := by
    have hlt := mem_range.mp hi
    rw [getElem?_eq_getElem hlt, htok i _ (getElem?_eq_getElem hlt)]
  obtain ⟨s, hs, hloop⟩ := loop_eq_foldlM hdb token (s := .start flags sql) [] nodup_range hget
    (fun _ _ => not_mem_nil) (nil_subset _)
  rw [length_range] at hloop
  exact ⟨s, hs, hloop⟩

end

/-! ## A limited statement -/

section

variable (token : ν → SqlToken)

def moved (P : List ν) : List ν := P.filter (isTop ∘ token) ++ P.filter (not ∘ isTop ∘ token)

/-- The state when `P` behind the command `c` has been visited, and `Q` has not. -/
def after (c : ν) (P Q : List ν) : State ν :=
  ⟨c :: (moved token P ++ Q), Q.head?, if P.any (isTop ∘ token) then [] else [c], c :: P⟩

variable {token} {c x : ν} {P Q : List ν}

theorem visit_after (hnd : (c :: (P ++ x :: Q)).Nodup) (hcmd : isCommand (token x) = false)
    (hlim : ((P ++ x :: Q).filter (isTop ∘ token)).length ≤ 1) :
    (visit (after token c P (x :: Q)) x (token x)).tokens = c :: (moved token (P ++ [x]) ++ Q) ∧
      (visit (after token c P (x :: Q)) x (token x)).commands =
        if (P ++ [x]).any (isTop ∘ token) then [] else [c] := by
  by_cases hx : (token x).isTop
  · -- it is the only limit, so nothing has been moved yet
    have hnone : P.filter (isTop ∘ token) = [] := by
      rw [filter_append, filter_cons_of_pos (p := isTop ∘ token) hx, length_append, length_cons]
        at hlim
      exact length_eq_zero_iff.mp (by omega)
    have hpln : ∀ y ∈ P, (token y).isTop = false :=
      fun y hy => Bool.eq_false_iff.mpr (filter_eq_nil_iff.mp hnone y hy)
    have hself : P.filter (not ∘ isTop ∘ token) = P :=
      filter_eq_self.mpr fun y hy => by simp [hpln y hy]
    have hany : P.any (isTop ∘ token) = false := any_eq_false.mpr fun y hy => by simp [hpln y hy]
    have hera : (c :: (P ++ x :: Q)).erase x = c :: (P ++ Q) := by
      rw [← cons_append] at hnd ⊢
      have hmem : x ∉ c :: P :=
        fun h => (nodup_cons.mp (perm_middle.nodup_iff.mp hnd)).1 (mem_append_left _ h)
      rw [erase_append_right _ hmem, erase_cons_head, cons_append]
    obtain ⟨n, htok⟩ := exists_of_isTop hx
    simp [visit, after, moved, hnone, hself, hany, hera, insertBehind, htok, isTop]
  · have hvis : visit (after token c P (x :: Q)) x (token x) = after token c P (x :: Q) := by
      unfold visit
      split <;> simp_all [isCommand, isTop]
    rw [hvis]
    simp [after, moved, hx]

theorem loop_after (hnd : (c :: (P ++ Q)).Nodup) (hcmd : ∀ x ∈ Q, isCommand (token x) = false)
    (hlim : ((P ++ Q).filter (isTop ∘ token)).length ≤ 1) :
    loop token Q.length (after token c P Q) = some (after token c (P ++ Q) []) := by
  induction Q generalizing P with
  | nil =>
    rw [append_nil]
    rfl
  | cons x Q ih =>
    have hspl : P ++ x :: Q = P ++ [x] ++ Q := by simp
    obtain ⟨htok, hcom⟩ := visit_after hnd (hcmd x mem_cons_self) hlim
    have hx : x ∉ c :: moved token P := by
      rw [← cons_append] at hnd
      intro h
      simp only [moved, mem_cons, mem_append, mem_filter] at h ⊢
      grind
    have hstep : loop token (x :: Q).length (after token c P (x :: Q)) =
        loop token Q.length (after token c (P ++ [x]) Q) := by
      show loop token Q.length ⟨(visit (after token c P (x :: Q)) x (token x)).tokens,
        next (c :: moved token P ++ x :: Q) x,
        (visit (after token c P (x :: Q)) x (token x)).commands, c :: P ++ [x]⟩ = _
      rw [next_append hx, htok, hcom]
      rfl
    rw [hstep, hspl]
    exact ih (hspl ▸ hnd) (forall_mem_cons.mp hcmd).2 (hspl ▸ hlim)

end

/-- **A limit is moved behind its command, every token is visited and nothing else changes**,
whatever has been compiled before. -/
theorem compile_moves_limit (token : ν → SqlToken) (commands : List ν) (c : ν) (rest : List ν)
    (hnodup : (c :: rest).Nodup)
    (hc : token c = .command .select ∨ token c = .command .update ∨ token c = .command .remove)
    (hcommand : ∀ x ∈ rest, isCommand (token x) = false)
    (hlimit : (rest.filter (isTop ∘ token)).length ≤ 1) :
    ∃ s, compile token commands (c :: rest) (rest.length + 1) = some s ∧ s.visited = c :: rest ∧
      s.tokens = c :: (rest.filter (isTop ∘ token) ++ rest.filter (not ∘ isTop ∘ token)) := by
  have hsta : compile token commands (c :: rest) (rest.length + 1) =
      loop token rest.length (after token c [] rest) := by
    show loop token rest.length { visit ⟨c :: rest, some c, [], []⟩ c (token c) with
      current := next ([] ++ c :: rest) c, visited := [c] } = _
    rw [next_append not_mem_nil]
    rcases hc with hc | hc | hc <;> (rw [hc]; rfl)
  refine ⟨_, hsta.trans (loop_after hnodup hcommand hlimit), rfl, ?_⟩
  exact congrArg (c :: ·) (append_nil _)

/-- The tokens of `SELECT … FROM … LIMIT 1`. -/
def limitedSelect : Nat → SqlToken
  | 0 => .command .select
  | 1 => .clause (.from [])
  | _ => .clause (.top 1)

theorem compile_limitedSelect : ∃ s, compile limitedSelect [5] [0, 1, 2] 3 = some s ∧
    s.visited = [0, 1, 2] ∧ s.tokens = [0, 2, 1] :=
  compile_moves_limit limitedSelect [5] 0 [1, 2] (by decide) (.inl rfl) (by decide) (by decide)

end Matador.Sql.MssqlCompiler
