import Matador.Utils.Url

/-!
# Serving files

`static_file_service` takes the decoded url of a request for a path in the current directory, unless
it has two dots in a row. The path is opened as a C string, so what is behind a NUL is not seen.
-/

namespace Matador.Http.StaticFileService

open List

open Url (Text byte)

/-- The answer to a request: `bad_request`, or what `response::from_file` makes of a path. -/
inductive Served
  | badRequest
  | fromFile (path : Text)
  deriving DecidableEq

def dots : Text := [byte '.', byte '.']

def serve (url : Text) : Served :=
  let (decoded, path) := Url.decode url
  if decoded = false then .badRequest
  else if path = [] ∨ path.head? ≠ some (byte '/') ∨ dots <:+: path then .badRequest
  else
    let path :=
      if path.getLast? = some (byte '/') then path ++ "index.html".toList.map byte else path
    .fromFile (byte '.' :: path)

/-! ## Resolving a path -/

/-- `c_str`, as `fopen` reads it. -/
def cString (path : Text) : Text := path.takeWhile (· ≠ 0)

/-- One component, from the directory with the given names below the current one; `none` above
it. -/
def follow (dirs : List Text) (component : Text) : Option (List Text) :=
  if component = [] ∨ component = [byte '.'] then some dirs
  else if component = dots then
    match dirs with
    | [] => none
    | _ :: dirs => some dirs
  else some (component :: dirs)

def resolve (path : Text) : Option (List Text) :=
  if path.head? = some (byte '/') then none else (path.splitOn (byte '/')).foldlM follow []

theorem exists_foldlM_follow {components : List Text} (h : dots ∉ components) (dirs : List Text) :
    ∃ dirs', components.foldlM follow dirs = some dirs' := by
  induction components generalizing dirs with
  | nil => exact ⟨dirs, rfl⟩
  | cons component components ih =>
    rw [mem_cons, not_or] at h
    have hfol : ∃ dirs', follow dirs component = some dirs' := by
      by_cases hsame : component = [] ∨ component = [byte '.']
      · exact ⟨dirs, if_pos hsame⟩
      · exact ⟨component :: dirs, (if_neg hsame).trans (if_neg (Ne.symm h.1))⟩
    obtain ⟨dirs', hdirs⟩ := hfol
    rw [foldlM_cons, hdirs]
    exact ih h.2 dirs'

theorem infix_of_mem_splitOn {c : UInt8} {component path : Text} (h : component ∈ path.splitOn c) :
    component <:+: path := by
  have hmem (parts : List Text) (h : component ∈ parts) : component ∈ parts.intersperse [c] := by
    induction parts using twoStepInduction with
    | nil => exact h
    | singleton part => exact h
    | cons_cons part part' parts _ ih =>
      rcases mem_cons.mp h with rfl | h
      · exact mem_cons_self
      · exact mem_cons_of_mem _ (mem_cons_of_mem _ (ih part' h))
  have hinf := infix_of_mem_flatten (hmem _ h)
  rwa [← intercalate, intercalate_splitOn] at hinf

/-! ## Paths without two dots in a row -/

def Dotless (path : Text) : Prop := path.IsChain fun a b => ¬(a = byte '.' ∧ b = byte '.')

theorem dotless_of_not_infix {path : Text} (h : ¬dots <:+: path) : Dotless path := by
  induction path using twoStepInduction with
  | nil => exact .nil
  | singleton c => exact .singleton c
  | cons_cons a b path _ ih =>
    refine .cons_cons ?_ (ih b fun hinf => h (infix_cons hinf))
    rintro ⟨rfl, rfl⟩
    exact h (prefix_append dots path).isInfix

theorem Dotless.not_infix {path : Text} (h : Dotless path) : ¬dots <:+: path := by
  intro hinf
  have hdots : Dotless dots := h.infix hinf
  rw [Dotless, dots, isChain_pair] at hdots
  exact hdots ⟨rfl, rfl⟩

theorem Dotless.resolve {path : Text} (h : Dotless path) (hhead : path.head? ≠ some (byte '/')) :
    ∃ dirs, resolve (cString path) = some dirs := by
  have hpre : cString path <+: path := takeWhile_prefix _
  have hrel : (cString path).head? ≠ some (byte '/') := by
    obtain ⟨rest, hrest⟩ := hpre
    intro hsls
    rw [← hrest, head?_append, hsls] at hhead
    exact hhead rfl
  rw [StaticFileService.resolve, if_neg hrel]
  refine exists_foldlM_follow (fun hmem => ?_) []
  exact h.not_infix ((infix_of_mem_splitOn hmem).trans hpre.isInfix)

/-- **A request is answered with `bad_request`, or the path that is opened never leaves the current
directory.** -/
theorem serve_stays (url : Text) :
    serve url = .badRequest ∨ ∃ path dirs, serve url = .fromFile path ∧
    resolve (cString path) = some dirs := by
  unfold serve
  cases Url.decode url with
  | mk decoded path =>
    by_cases hdec : decoded = false
    · exact .inl (if_pos hdec)
    by_cases hbad : path = [] ∨ path.head? ≠ some (byte '/') ∨ dots <:+: path
    · exact .inl ((if_neg hdec).trans (if_pos hbad))
    refine .inr ?_
    simp only [if_neg hdec, if_neg hbad]
    rw [not_or, not_or, not_not] at hbad
    obtain ⟨-, hsls, hdots⟩ := hbad
    have hpath : Dotless path := dotless_of_not_infix hdots
    -- a slash stands between the dot and the path, and between the path and the name of the file
    have hcons (path : Text) (hpath : Dotless path) (hsls : path.head? = some (byte '/')) :
        Dotless (byte '.' :: path) := by
      refine isChain_cons.mpr ⟨fun b hb hdot => ?_, hpath⟩
      rw [hsls] at hb
      cases hb
      exact absurd hdot.2 (by decide)
    have hser :
      Dotless (if path.getLast? = some (byte '/') then path ++ "index.html".toList.map byte
        else path) ∧
        (if path.getLast? = some (byte '/') then path ++ "index.html".toList.map byte
          else path).head? =
          some (byte '/') := by
      split
      · next hlast =>
        refine ⟨isChain_append.mpr ⟨hpath, by decide, fun a ha b _ hdot => ?_⟩, ?_⟩
        · rw [hlast] at ha
          cases ha
          exact absurd hdot.1 (by decide)
        · rw [head?_append, hsls]
          rfl
      · exact ⟨hpath, hsls⟩
    obtain ⟨dirs, hdirs⟩ :=
      (hcons _ hser.1 hser.2).resolve fun h => absurd (Option.some.inj h) (by decide)
    exact ⟨_, dirs, rfl, hdirs⟩

end Matador.Http.StaticFileService
