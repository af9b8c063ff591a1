import Mathlib

/-!
# `getopt`, and settings of which the last one wins

The scan of GNU `getopt` for options of one letter, over the arguments behind the name of the program.
An argument of `-` and at least one more character is a cluster of letters, of which the first that takes
an argument takes the rest of the cluster, or else the next argument. `--` ends the options. The other
arguments are passed over, and the scan moves them behind the options, so that a second scan does not get
the same arguments; but it finds the same options if the first one has not failed (`scan_permute`).

A program that loops over the options and stores a setting with each is left with the last one (`lastOf`).
-/

namespace Aegir

/-! ## The scan -/

/-- What a call of `getopt` returns: an option and `optarg`, which is empty for an option without
argument, or `'?'`. -/
inductive Getopt
  | option (c : Char) (optarg : List Char)
  | error
  deriving DecidableEq, Repr

namespace Getopt

/-- Whether a letter is an option, and then whether it takes an argument. No argument is optional. -/
def optionKind (optstring : List Char) (c : Char) : Option Bool :=
  if c = ':' ∨ c = ';' then none
  else match optstring.dropWhile (· ≠ c) with
    | [] => none
    | _ :: rest => some (rest.head? = some ':')

theorem mem_of_optionKind {optstring : List Char} {c : Char} (h : (optionKind optstring c).isSome) :
    c ∈ optstring ∧ c ≠ ':' := by
  unfold optionKind at h
  split at h
  · cases h
  rename_i hcolon
  refine ⟨?_, fun hc => hcolon (.inl hc)⟩
  by_contra hnot
  have hdrop : optstring.dropWhile (· ≠ c) = [] :=
    List.dropWhile_eq_nil_iff.mpr fun c' hc' => decide_eq_true fun heq => hnot (heq ▸ hc')
  rw [hdrop] at h
  cases h

/-- The options of a cluster, and the one that takes the next argument. -/
def cluster (optstring : List Char) : List Char → List Getopt × Option Char
  | [] => ([], none)
  | c :: cs =>
    match optionKind optstring c with
    | none => (.error :: (cluster optstring cs).1, (cluster optstring cs).2)
    | some false => (.option c [] :: (cluster optstring cs).1, (cluster optstring cs).2)
    | some true => if cs = [] then ([], some c) else ([.option c cs], none)

/-- An argument that has options. -/
def isCluster : List Char → Bool
  | '-' :: _ :: _ => true
  | _ => false

/-- What the calls return, where the option `pending` takes the next argument. -/
def scan (optstring : List Char) : (pending : Option Char) → List (List Char) → List Getopt
  | none, [] => []
  | some _, [] => [.error]
  | some c, arg :: args => .option c arg :: scan optstring none args
  | none, arg :: args =>
    if arg = ['-', '-'] then []
    else if isCluster arg then
      (cluster optstring arg.tail).1 ++ scan optstring (cluster optstring arg.tail).2 args
    else scan optstring none args

/-- The arguments after the scan; `passed` are those that it has passed over. -/
def permute (optstring : List Char) :
    (pending : Option Char) → (passed args : List (List Char)) → List (List Char)
  | _, passed, [] => passed
  | some _, passed, arg :: args => arg :: permute optstring none passed args
  | none, passed, arg :: args =>
    if arg = ['-', '-'] then arg :: (passed ++ args)
    else if isCluster arg then
      arg :: permute optstring (cluster optstring arg.tail).2 passed args
    else permute optstring none (passed ++ [arg]) args

variable {optstring : List Char} {pending : Option Char} {passed args : List (List Char)} {c : Char}
  {optarg : List Char}

theorem scan_eq_nil (h : ∀ arg ∈ args, isCluster arg = false) : scan optstring none args = [] := by
  induction args with
  | nil => rfl
  | cons arg args ih =>
    have harg := h arg List.mem_cons_self
    have hne : arg ≠ ['-', '-'] := by
      rintro rfl
      cases harg
    rw [scan, if_neg hne, if_neg (by simp [harg])]
    exact ih fun a ha => h a (List.mem_cons_of_mem _ ha)

/-- A second scan finds the same options. -/
theorem scan_permute (hpassed : ∀ arg ∈ passed, isCluster arg = false)
    (herr : .error ∉ scan optstring pending args) :
    scan optstring pending (permute optstring pending passed args) = scan optstring pending args := by
  induction args generalizing pending passed with
  | nil =>
    cases pending with
    | none => exact scan_eq_nil hpassed
    | some c => simp [scan] at herr
  | cons arg args ih =>
    cases pending with
    | some c =>
      simp only [scan, permute, List.mem_cons, reduceCtorEq, false_or] at herr ⊢
      rw [ih hpassed herr]
    | none =>
      by_cases hend : arg = ['-', '-']
      · subst hend
        rfl
      by_cases hcl : isCluster arg = true
      · simp only [scan, permute, if_neg hend, if_pos hcl, List.mem_append, not_or] at herr ⊢
        rw [ih hpassed herr.2]
      · simp only [scan, permute, if_neg hend, if_neg hcl] at herr ⊢
        refine ih (fun a ha => ?_) herr
        rcases List.mem_append.mp ha with ha | ha
        · exact hpassed a ha
        · rw [List.mem_singleton.mp ha]
          exact Bool.eq_false_iff.mpr hcl

theorem mem_cluster {cs : List Char} (h : .option c optarg ∈ (cluster optstring cs).1) :
    (optionKind optstring c).isSome := by
  induction cs with
  | nil => cases h
  | cons c' cs ih =>
    simp only [cluster] at h
    split at h
    · exact ih (by simpa using h)
    · rename_i hkind
      rcases List.mem_cons.mp h with heq | h
      · cases heq
        simp [hkind]
      · exact ih h
    · rename_i hkind
      split at h
      · cases h
      · cases List.mem_singleton.mp h
        simp [hkind]

theorem cluster_pending {cs : List Char} (h : (cluster optstring cs).2 = some c) :
    (optionKind optstring c).isSome := by
  induction cs with
  | nil => cases h
  | cons c' cs ih =>
    simp only [cluster] at h
    split at h
    · exact ih h
    · exact ih h
    · rename_i hkind
      split at h
      · cases h
        simp [hkind]
      · cases h

/-- Only the letters of `optstring` are returned. -/
theorem mem_scan (hpending : ∀ c, pending = some c → (optionKind optstring c).isSome)
    (h : .option c optarg ∈ scan optstring pending args) : (optionKind optstring c).isSome := by
  induction args generalizing pending with
  | nil => cases pending <;> simp [scan] at h
  | cons arg args ih =>
    cases pending with
    | some c' =>
      rcases List.mem_cons.mp h with heq | h
      · cases heq
        exact hpending c rfl
      · exact ih (fun _ h => by cases h) h
    | none =>
      simp only [scan] at h
      split at h
      · cases h
      · split at h
        · rcases List.mem_append.mp h with h | h
          · exact mem_cluster h
          · exact ih (fun _ h => cluster_pending h) h
        · exact ih (fun _ h => by cases h) h

end Getopt

/-! ## The last one wins -/

section
variable {α β : Type*} {set : α → Option β} {l l' : List α}

/-- The value of the last element that has one. -/
def lastOf (set : α → Option β) (l : List α) : Option β := (l.filterMap set).getLast?

theorem lastOf_append : lastOf set (l ++ l') = (lastOf set l').or (lastOf set l) := by
  rw [lastOf, List.filterMap_append, List.getLast?_append]
  rfl

/-- The elements without a value do not matter. -/
theorem filterMap_filter_of_none {p : α → Bool} (h : ∀ a, p a = false → set a = none) :
    (l.filter p).filterMap set = l.filterMap set := by
  rw [List.filterMap_filter]
  congr 1
  funext a
  cases hp : p a with
  | true => rfl
  | false => rw [h a hp]; rfl

theorem lastOf_filter {p : α → Bool} (h : ∀ a, p a = false → set a = none) :
    lastOf set (l.filter p) = lastOf set l := by
  rw [lastOf, filterMap_filter_of_none h, lastOf]

/-- A setting that is stored twice. -/
theorem getD_getD {x : Option β} {b : β} : x.getD (x.getD b) = x.getD b := by
  cases x <;> rfl

/-- A setting that is stored before and after another one. -/
theorem getD_getD_getD {x y : Option β} {b : β} : x.getD (y.getD (x.getD b)) = (x.or y).getD b := by
  cases x <;> cases y <;> rfl

end
end Aegir
