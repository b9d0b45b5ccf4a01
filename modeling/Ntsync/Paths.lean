import Mathlib
import Ntsync.Abi

namespace Ntsync

/-!
# Which file a process maps

`resolve_path` chooses the configured path, `open_and_map` puts the version of the layout into its
name, and `init` remembers for the rest of the process what came of the first attempt.

* `layoutPath` — the name of the file; `configured` reads version and configured path back from it;
* `inits` — the answers to all calls of `init` in one process;
* `region_files_apart` — processes map one file only if their builds have the same layout and their first
  calls found the same path.
-/

/-! ### Names of files -/

abbrev Str := List Char

/-- `str::rsplit_once` -/
def rsplitOnce (c : Char) : Str → Option (Str × Str)
  | [] => none
  | x :: xs =>
    match rsplitOnce c xs with
    | some (a, b) => some (x :: a, b)
    | none => if x = c then some ([], xs) else none

def shm : Str := ['s', 'h', 'm']

/-- The decimal digits that `format!` writes. -/
def decimal (n : Nat) : Str := Nat.toDigits 10 n

/-- The name under which a build with layout `version` opens the configured path. -/
def layoutPath (version : Nat) (path : Str) : Str :=
  match rsplitOnce '.' path with
  | some (stem, ext) =>
    if ext = shm then stem ++ '.' :: 'v' :: decimal version ++ '.' :: shm
    else path ++ '.' :: 'v' :: decimal version
  | none => path ++ '.' :: 'v' :: decimal version

/-- The number in a part `vN` of a name. -/
def versionOf : Str → Option Nat
  | [] => none
  | c :: ds => if c = 'v' then some (Nat.ofDigitChars 10 ds 0) else none

/-- The version and the configured path of a file name. -/
def configured (file : Str) : Option (Nat × Str) :=
  match rsplitOnce '.' file with
  | none => none
  | some (a, ext) =>
    match versionOf ext with
    | some version => some (version, a)
    | none =>
      match rsplitOnce '.' a with
      | none => none
      | some (stem, mid) => (versionOf mid).map (·, stem ++ '.' :: shm)

/-! ### One process -/

/-- What a call of `init` finds: its argument, the environment, and what becomes of the file. -/
structure InitArgs where
  path : Option Str
  ntsyncShm : Option Str
  tmpdir : Option Str
  opened : Except Int Unit

def resolvePath (x : InitArgs) : Except Int Str :=
  match x.path with
  | some p => .ok p
  | none =>
    match x.ntsyncShm with
    | some (c :: cs) => .ok (c :: cs)
    | _ =>
      match x.tmpdir with
      | some (c :: cs) => .ok (c :: cs ++ "/ntsync_userspace.shm".toList)
      | _ => .error einval

/-- The file that a first call of `init` maps.  A path with a NUL is no C string. -/
def regionFile (version : Nat) (x : InitArgs) : Except Int Str := do
  let path ← resolvePath x
  let file := layoutPath version path
  if '\x00' ∈ file then .error einval
  else
    let _ ← x.opened
    .ok file

/-- The answers to the calls of `init` in one process, with what `REGION` holds before them: the
    file that is mapped, or an error. -/
def inits (version : Nat) : Option (Except Int Str) → List InitArgs → List (Except Int Str)
  | _, [] => []
  | some r, _ :: xs => r :: inits version (some r) xs
  | none, x :: xs => regionFile version x :: inits version (some (regionFile version x)) xs

/-! ### Reading a name back -/

section Names

variable {c : Char} {a b : Str} {path file : Str} {version : Nat}

/-- Without a separator there is nothing to split. -/
theorem rsplitOnce_eq_none (h : c ∉ a) : rsplitOnce c a = none := by
  induction a with
  | nil => rfl
  | cons x xs ih =>
    have hx : x ≠ c := fun he => h (he ▸ List.mem_cons_self ..)
    rw [rsplitOnce, ih fun hm => h (List.mem_cons_of_mem _ hm)]
    exact if_neg hx

/-- The split is at the last separator. -/
theorem rsplitOnce_append (hb : c ∉ b) : rsplitOnce c (a ++ c :: b) = some (a, b) := by
  induction a with
  | nil =>
    show rsplitOnce c (c :: b) = _
    rw [rsplitOnce, rsplitOnce_eq_none hb]
    exact if_pos rfl
  | cons x xs ih => rw [List.cons_append, rsplitOnce, ih]

/-- A split is undone by putting the separator back. -/
theorem eq_of_rsplitOnce (h : rsplitOnce c path = some (a, b)) : path = a ++ c :: b := by
  induction path generalizing a b with
  | nil => cases h
  | cons x xs ih =>
    rw [rsplitOnce] at h
    cases hs : rsplitOnce c xs with
    | some y =>
      rw [hs] at h
      cases h
      rw [List.cons_append, ← ih hs]
    | none =>
      rw [hs] at h
      simp only at h
      split at h <;> cases h
      rename_i hx
      rw [hx, List.nil_append]

/-- A decimal has no dot. -/
theorem dot_notMem_decimal (n : Nat) : '.' ∉ decimal n := fun h =>
  absurd (Nat.isDigit_of_mem_toDigits (by decide) (by decide) h) (by decide)

/-- A version has no dot. -/
theorem dot_notMem_version (n : Nat) : '.' ∉ 'v' :: decimal n := fun h => by
  rcases List.mem_cons.mp h with h | h
  · exact absurd h (by decide)
  · exact dot_notMem_decimal n h

/-- A version is read back. -/
theorem versionOf_decimal (n : Nat) : versionOf ('v' :: decimal n) = some n :=
  congrArg some Nat.ofDigitChars_ten_toDigits

/-- The version goes to the end of the path. -/
theorem configured_append :
    configured (path ++ '.' :: 'v' :: decimal version) = some (version, path) := by
  simp only [configured, rsplitOnce_append (dot_notMem_version version), versionOf_decimal]

/-- The version goes before the extension. -/
theorem configured_shm : configured (a ++ '.' :: 'v' :: decimal version ++ '.' :: shm) =
    some (version, a ++ '.' :: shm) := by
  have hshm : versionOf shm = none := by decide
  simp only [configured, rsplitOnce_append (show '.' ∉ shm by decide), hshm,
    rsplitOnce_append (dot_notMem_version version), versionOf_decimal, Option.map_some]

/-- **Round trip.** The name of the file tells the version and the configured path. -/
theorem configured_layoutPath (version : Nat) (path : Str) :
    configured (layoutPath version path) = some (version, path) := by
  unfold layoutPath
  cases h : rsplitOnce '.' path with
  | none => exact configured_append
  | some x =>
    obtain ⟨stem, ext⟩ := x
    simp only
    split
    · rename_i hext
      rw [configured_shm, eq_of_rsplitOnce h, hext]
    · exact configured_append

end Names

/-! ### The files of two processes -/

section Processes

variable {version version' : Nat} {x y : InitArgs} {xs ys : List InitArgs} {f : Str}
  {r r' : Except Int Str}

/-- A process stays with what came of its first call. -/
theorem inits_some (h : r ∈ inits version (some r') xs) : r = r' := by
  induction xs with
  | nil => cases h
  | cons x xs ih =>
    rcases List.mem_cons.mp h with h | h
    · exact h
    · exact ih h

/-- The first call names the file of its own path. -/
theorem inits_none (h : r ∈ inits version none (x :: xs)) : r = regionFile version x := by
  rcases List.mem_cons.mp h with h | h
  · exact h
  · exact inits_some h

/-- The file of a path is the path with the layout's version in it. -/
theorem regionFile_ok (h : regionFile version x = .ok f) :
    ∃ path, resolvePath x = .ok path ∧ f = layoutPath version path := by
  unfold regionFile at h
  cases hp : resolvePath x with
  | error e => rw [hp] at h; cases h
  | ok path =>
    rw [hp] at h
    refine ⟨path, rfl, ?_⟩
    simp only [bind, Except.bind] at h
    split at h
    · cases h
    · cases ho : x.opened with
      | error e => rw [ho] at h; cases h
      | ok u => rw [ho] at h; cases h; rfl

/-- **Distinct layouts never share a region file.** If two processes, each with any calls of `init`,
    have both mapped a file of this name, their builds have the same layout version and their first
    calls found the same path; and neither has ever been told of another file, or of a failure. -/
theorem region_files_apart (hx : .ok f ∈ inits version none (x :: xs))
    (hy : .ok f ∈ inits version' none (y :: ys)) :
    version = version' ∧ resolvePath x = resolvePath y ∧
    (∀ r ∈ inits version none (x :: xs), r = .ok f) ∧
    ∀ r ∈ inits version' none (y :: ys), r = .ok f := by
  obtain ⟨p, hp, hf⟩ := regionFile_ok (inits_none hx).symm
  obtain ⟨q, hq, hg⟩ := regionFile_ok (inits_none hy).symm
  have hread : some (version, p) = some (version', q) := by
    rw [← configured_layoutPath version p, ← hf, hg, configured_layoutPath]
  cases hread
  exact ⟨rfl, hp.trans hq.symm, fun r hr => (inits_none hr).trans (inits_none hx).symm,
    fun r hr => (inits_none hr).trans (inits_none hy).symm⟩

end Processes

/-- The argument and the variable name the same file. -/
theorem region_files_apart_argumentAndVariable :
    resolvePath ⟨some "/x/a.shm".toList, none, none, .ok ()⟩ =
      resolvePath ⟨none, some "/x/a.shm".toList, some "/tmp".toList, .ok ()⟩ := by
  have hx : .ok "/x/a.v10.shm".toList ∈ inits 10 none [⟨some "/x/a.shm".toList, none, none, .ok ()⟩,
      ⟨some "/y".toList, none, none, .ok ()⟩] := by decide
  have hy : .ok "/x/a.v10.shm".toList ∈ inits 10 none
      [⟨none, some "/x/a.shm".toList, some "/tmp".toList, .ok ()⟩] := by decide
  exact (region_files_apart hx hy).2.1

end Ntsync
