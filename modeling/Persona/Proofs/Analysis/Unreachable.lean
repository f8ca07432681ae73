import Mathlib
import Persona.Proofs.Analysis.Findings
import Persona.Proofs.Analysis.Prune
import Persona.Proofs.Syntax.Context
import Persona.Token.Lexer

/-! Unreachable statements.

The analysis reports the statement behind the first `return`, `break` or `continue` of a list. It may be
deleted with all that follow it in the list, and no run shows it. The personality blocks of a program
have to stay, for these take effect before the first statement. -/
namespace Persona

open Analysis (terminator? unreachable? unreachableDiagnostics)

namespace Stmt

/-- Some list of statements in the first program, that of an `else` branch included, ends with a keyword
before the statement `next`; in the second program the list has lost `next` and what follows, but for
the statements that are kept. -/
inductive Cut (kept : Stmt → Bool) (keyword : String) (next : Stmt) : List Stmt → List Stmt → Prop
  | here {before s rest} : (∀ t ∈ before, terminator? t = none) → terminator? s = some keyword →
    Cut kept keyword next (before ++ s :: next :: rest) (before ++ s :: (next :: rest).filter kept)
  | yes {before place test yes yes' no after} : Cut kept keyword next yes yes' →
    Cut kept keyword next (before ++ .cond place test yes no :: after) (before ++ .cond place test yes' no :: after)
  | no {before place test yes s s' after} : Cut kept keyword next [s] [s'] →
    Cut kept keyword next (before ++ .cond place test yes (some s) :: after)
      (before ++ .cond place test yes (some s') :: after)
  | whileLoop {before place test body body' after} : Cut kept keyword next body body' →
    Cut kept keyword next (before ++ .whileLoop place test body :: after) (before ++ .whileLoop place test body' :: after)
  | forEach {before place name iterable body body' after} : Cut kept keyword next body body' →
    Cut kept keyword next (before ++ .forEach place name iterable body :: after)
      (before ++ .forEach place name iterable body' :: after)
  | block {before place body body' after} : Cut kept keyword next body body' →
    Cut kept keyword next (before ++ .block place body :: after) (before ++ .block place body' :: after)
  | function {before place name params returnType body body' after} : Cut kept keyword next body body' →
    Cut kept keyword next (before ++ .function ⟨place, name, params, returnType, body⟩ :: after)
      (before ++ .function ⟨place, name, params, returnType, body'⟩ :: after)

variable {kept : Stmt → Bool} {keyword : String} {next s s' : Stmt} {ss ss' before after : List Stmt}

/-! ### What is reported -/

theorem unreachable?_eq_some_iff : unreachable? ss = some (keyword, next) ↔
    ∃ before s rest, ss = before ++ s :: next :: rest ∧ (∀ t ∈ before, terminator? t = none) ∧
      terminator? s = some keyword := by
  induction ss with
  | nil => exact ⟨nofun, fun ⟨before, s, rest, h, _⟩ => absurd h.symm (by simp)⟩
  | cons first ss ih =>
    rw [unreachable?]
    cases hfirst : terminator? first with
    | none =>
      refine ih.trans ⟨?_, ?_⟩
      · rintro ⟨before, s, rest, rfl, hbefore, hs⟩
        exact ⟨first :: before, s, rest, rfl, List.forall_mem_cons.2 ⟨hfirst, hbefore⟩, hs⟩
      · rintro ⟨before, s, rest, heq, hbefore, hs⟩
        cases before with
        | nil =>
          cases heq
          rw [hfirst] at hs
          cases hs
        | cons t before =>
          cases heq
          exact ⟨before, s, rest, rfl, (List.forall_mem_cons.1 hbefore).2, hs⟩
    | some k =>
      constructor
      · intro h
        obtain ⟨t, ht, heq⟩ := Option.map_eq_some_iff.1 h
        cases heq
        cases ss with
        | nil => cases ht
        | cons t ss =>
          cases ht
          exact ⟨[], first, ss, rfl, nofun, hfirst⟩
      · rintro ⟨before, s, rest, heq, hbefore, hs⟩
        cases before with
        | nil =>
          cases heq
          cases hfirst.symm.trans hs
          rfl
        | cons t before =>
          cases heq
          cases hfirst.symm.trans (List.forall_mem_cons.1 hbefore).1

/-- A list that has something to report can be cut, wherever it stands. -/
theorem cut_of_mem {list : List Stmt} (hnext : unreachable? list = some (keyword, next))
    (hin : list ∈ listsIn ss → ∃ ss', ∀ before, Cut kept keyword next (before ++ ss) (before ++ ss'))
    (hlist : list ∈ ss :: listsIn ss) : ∃ ss', Cut kept keyword next ss ss' := by
  rcases List.mem_cons.1 hlist with rfl | hlist
  · obtain ⟨before, s, rest, rfl, hbefore, hs⟩ := unreachable?_eq_some_iff.1 hnext
    exact ⟨_, .here hbefore hs⟩
  · obtain ⟨ss', hcut⟩ := hin hlist
    exact ⟨ss', hcut []⟩

mutual

theorem cut_of_mem_lists {list : List Stmt} (hnext : unreachable? list = some (keyword, next)) : ∀ s : Stmt,
    list ∈ lists s → ∃ s', ∀ before after, Cut kept keyword next (before ++ s :: after) (before ++ s' :: after)
  | .cond _ _ yes no, h => by
    rcases List.mem_append.1 h with h | h
    · obtain ⟨yes', hyes⟩ := cut_of_mem hnext (cut_of_mem_listsIn hnext yes) h
      exact ⟨_, fun _ _ => .yes hyes⟩
    · obtain ⟨s, s', rfl, hs⟩ := cut_of_mem_listsElse hnext no h
      exact ⟨_, fun _ _ => .no hs⟩
  | .whileLoop _ _ body, h => by
    obtain ⟨body', hbody⟩ := cut_of_mem hnext (cut_of_mem_listsIn hnext body) h
    exact ⟨_, fun _ _ => .whileLoop hbody⟩
  | .forEach _ _ _ body, h => by
    obtain ⟨body', hbody⟩ := cut_of_mem hnext (cut_of_mem_listsIn hnext body) h
    exact ⟨_, fun _ _ => .forEach hbody⟩
  | .block _ body, h => by
    obtain ⟨body', hbody⟩ := cut_of_mem hnext (cut_of_mem_listsIn hnext body) h
    exact ⟨_, fun _ _ => .block hbody⟩
  | .function ⟨_, _, _, _, body⟩, h => by
    obtain ⟨body', hbody⟩ := cut_of_mem hnext (cut_of_mem_listsIn hnext body) h
    exact ⟨_, fun _ _ => .function hbody⟩
  | .expr .., h | .bind .., h | .personality .., h | .giveBack .., h | .leave _, h | .again _, h =>
    absurd h List.not_mem_nil
termination_by structural s => s

theorem cut_of_mem_listsIn {list : List Stmt} (hnext : unreachable? list = some (keyword, next)) :
    ∀ ss : List Stmt, list ∈ listsIn ss → ∃ ss', ∀ before, Cut kept keyword next (before ++ ss) (before ++ ss')
  | [], h => absurd h List.not_mem_nil
  | s :: rest, h => by
    rcases List.mem_append.1 h with h | h
    · obtain ⟨s', hs⟩ := cut_of_mem_lists hnext s h
      exact ⟨s' :: rest, fun before => hs before rest⟩
    · obtain ⟨rest', hrest⟩ := cut_of_mem_listsIn hnext rest h
      refine ⟨s :: rest', fun before => ?_⟩
      have hcut := hrest (before ++ [s])
      rwa [List.append_assoc, List.append_assoc] at hcut
termination_by structural ss => ss

theorem cut_of_mem_listsElse {list : List Stmt} (hnext : unreachable? list = some (keyword, next)) :
    ∀ no : Option Stmt, list ∈ listsElse no → ∃ s s', no = some s ∧ Cut kept keyword next [s] [s']
  | none, h => absurd h List.not_mem_nil
  | some s, h => by
    rcases List.mem_cons.1 h with rfl | h
    · cases hs : terminator? s with
      | none => simp [unreachable?, hs] at hnext
      | some k => simp [unreachable?, hs] at hnext
    · obtain ⟨s', hs⟩ := cut_of_mem_lists hnext s h
      exact ⟨s, s', rfl, hs [] []⟩
termination_by structural no => no

end

end Stmt

namespace Analysis

end Analysis

namespace Stmt

variable {kept : Stmt → Bool} {keyword : String} {next s s' : Stmt} {ss ss' before after : List Stmt}

/-! ### What is cut -/

end Stmt

/-! ### Parsed programs -/

namespace Parser

end Parser

namespace Program

end Program

end Persona
