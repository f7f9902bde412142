/-
# `Pyramid.FileNames` — the files a worker names (`client/src/client.c`)

`handle_exec_data` takes the name of the input file from the path it was sent,
its last component, and puts "output_" before it for the other.  Both names are
printed into arrays of 100 bytes.  That they were cut off would show in what
`snprintf` returns, but the length this is compared with is the length before
the cut as well.
-/
import Pyramid.Memory.Text
import Pyramid.Memory.Tokens

namespace Pyramid

/-! ## The functions -/

/-- `strtok_r`: the token, and what the next call goes on with. -/
def strtokR (d : UInt8) (s : Bytes) : Option Bytes × Bytes :=
  match strtok d s with
  | none => (none, [])
  | some (t, r) => (some t, r)

/-- `"/"` -/
def slash : UInt8 := 47

/-- The loop of `get_filename_from_path`. -/
def lastToken : Nat → Option Bytes → Bytes → Except Halt (Option Bytes)
  | 0, _, _ => .error .diverge
  | fuel + 1, filename, save =>
      match strtokR slash save with
      | (none, _) => .ok filename
      | (some current, save) => lastToken fuel (some current) save

def getFilenameFromPath (path : Bytes) : Except Halt (Option Bytes) :=
  let (filename, save) := strtokR slash path
  lastToken (path.length + 1) filename save

/-- `strnlen` of a string -/
def strnlen (s : Bytes) (size : Nat) : Nat := min s.length size

/-- `in_f` and `out_f` -/
def inF : Bytes := ascii ""

def outF : Bytes := ascii "output_"

/-- `client_generate_in_out_filenames_from_path`, with the arrays `in` and `out`,
which are zeroed before. -/
def clientGenerateInOutFilenamesFromPath (size : Nat) (path : Bytes) :
    Except Halt (Bool × Bytes × Bytes) := do
  let zeroed := List.replicate size 0
  match ← getFilenameFromPath path with
  | none => .ok (false, zeroed, zeroed)
  | some name =>
      let pathLen := strnlen name size
      let inLen := strnlen inF size
      let outLen := strnlen outF size
      if (inF ++ name).length = pathLen + inLen then
        .ok ((outF ++ name).length = pathLen + outLen, snprintf size (inF ++ name),
          snprintf size (outF ++ name))
      else .ok (false, snprintf size (inF ++ name), zeroed)

/-! ## The last component -/

/-- The components of a path that are not empty. -/
def components (path : Bytes) : List Bytes := tokens slash path

theorem lastToken_eq : ∀ (fuel : Nat) (filename : Option Bytes) (save : Bytes),
    save.length < fuel →
    lastToken fuel filename save = .ok ((components save).getLast?.or filename) := by
  intro fuel
  induction fuel with
  | zero => exact fun filename save hfuel => absurd hfuel (Nat.not_lt_zero _)
  | succ fuel ih =>
      intro filename save hfuel
      rw [lastToken, strtokR, components]
      cases htok : strtok slash save with
      | none =>
          rw [strtok_none htok]
          rfl
      | some x =>
          obtain ⟨t, r⟩ := x
          have hshort := strtok_shorter htok
          rw [strtok_tokens htok, List.getLast?_cons]
          show lastToken fuel (some t) r = _
          rw [ih (some t) r (by omega), components]
          cases (tokens slash r).getLast? with
          | none => rfl
          | some u => rfl

theorem getFilenameFromPath_eq (path : Bytes) :
    getFilenameFromPath path = .ok (components path).getLast? := by
  rw [getFilenameFromPath, strtokR, components]
  cases htok : strtok slash path with
  | none =>
      rw [strtok_none htok]
      exact lastToken_eq _ _ _ (Nat.succ_pos _)
  | some x =>
      obtain ⟨t, r⟩ := x
      have hshort := strtok_shorter htok
      rw [strtok_tokens htok, List.getLast?_cons]
      show lastToken (path.length + 1) (some t) r = _
      rw [lastToken_eq _ _ _ (by omega), components]
      cases (tokens slash r).getLast? with
      | none => rfl
      | some u => rfl

/-! ## Both names -/

/-- The call returns `TRUE` exactly if there is a component and both names fit,
and has stored them whole then. -/
def NamesFiles (size : Nat) (path : Bytes) : Prop :=
  ∃ found inFile outFile,
    clientGenerateInOutFilenamesFromPath size path = .ok (found, inFile, outFile) ∧
    (found = true ↔ ∃ name, (components path).getLast? = some name
      ∧ name.length < size ∧
      (outF ++ name).length < size) ∧
    (found = true → ∃ name, (components path).getLast? = some name
      ∧ cString inFile = .ok name ∧
      cString outFile = .ok (outF ++ name))

section Names
variable {path name : Bytes}

theorem component_bound (hname : (components path).getLast? = some name) :
    name.length ≤ path.length ∧ (0 ∉ path → 0 ∉ name) := by
  have hpart := tokens_isInfix rfl name (List.mem_of_getLast? hname)
  exact ⟨hpart.length_le, fun hnul hmem => hnul (hpart.subset hmem)⟩

/-- Neither comparison can fail: both sides count what did not fit. -/
theorem generate_name (hname : (components path).getLast? = some name)
    (hlen : name.length ≤ 100) :
    clientGenerateInOutFilenamesFromPath 100 path
      = .ok (true, snprintf 100 name, snprintf 100 (outF ++ name)) := by
  have hin : (inF ++ name).length = strnlen name 100 + strnlen inF 100 := by
    rw [strnlen, Nat.min_eq_left hlen, Nat.add_comm, List.length_append]
    rfl
  have hout : (outF ++ name).length = strnlen name 100 + strnlen outF 100 := by
    rw [strnlen, Nat.min_eq_left hlen, Nat.add_comm, List.length_append]
    rfl
  rw [clientGenerateInOutFilenamesFromPath, getFilenameFromPath_eq, ok_bind, hname]
  simp only [hin, hout, if_true, decide_true]
  rfl

theorem generate_none (hname : (components path).getLast? = none) :
    ∃ zeroed, clientGenerateInOutFilenamesFromPath 100 path
      = .ok (false, zeroed, zeroed) := by
  rw [clientGenerateInOutFilenamesFromPath, getFilenameFromPath_eq, ok_bind, hname]
  exact ⟨_, rfl⟩

/-- For a path in a buffer of 100 bytes the call is right if the last component has
at most 92 characters, or there is none, and not otherwise. -/
theorem names_files_iff (hlen : path.length < 100) (hnul : 0 ∉ path) :
    NamesFiles 100 path ↔ ∀ name, (components path).getLast? = some name →
      name.length ≤ 92 := by
  have hseven : ∀ name : Bytes, (outF ++ name).length = 7 + name.length :=
    fun name =>
    List.length_append
  constructor
  · rintro ⟨found, inFile, outFile, hrun, hfits, -⟩ name hname
    have hbound := (component_bound hname).1
    cases (generate_name hname (by omega)).symm.trans hrun
    obtain ⟨name', hname', -, hout⟩ := hfits.mp rfl
    cases hname.symm.trans hname'
    rw [hseven] at hout
    omega
  · intro hshort
    cases hname : (components path).getLast? with
    | none =>
        obtain ⟨zeroed, hrun⟩ := generate_none hname
        refine ⟨false, zeroed, zeroed, hrun, ?_,
          fun hfound => absurd hfound Bool.false_ne_true⟩
        refine iff_of_false Bool.false_ne_true ?_
        rintro ⟨name, hsome, -⟩
        cases hname.symm.trans hsome
    | some name =>
        have hle := hshort name hname
        have hclean := (component_bound hname).2 hnul
        have hcleanOut : 0 ∉ outF ++ name := by
          intro hmem
          rcases List.mem_append.mp hmem with hmem | hmem
          · exact absurd hmem (by decide)
          · exact hclean hmem
        refine ⟨true, _, _, generate_name hname (by omega), ?_,
          fun _ => ⟨name, hname, ?_, ?_⟩⟩
        · exact iff_of_true rfl ⟨name, hname, by omega, by rw [hseven]; omega⟩
        · rw [cString_snprintf (by decide) hclean, List.take_of_length_le (by omega)]
        · rw [cString_snprintf (by decide) hcleanOut,
            List.take_of_length_le (by rw [hseven]; omega)]

theorem names_files_sample :
    NamesFiles 100 (ascii "10.0.0.7:/srv/job_3/prob//input_p002/") :=
  (names_files_iff (by decide) (by decide)).mpr fun name hname => by
    have hlast :
        (components (ascii "10.0.0.7:/srv/job_3/prob//input_p002/")).getLast?
        = some (ascii "input_p002") := by decide +kernel
    cases hlast.symm.trans hname
    decide

/-- A name of 93 characters: the other one loses its last, and
the call returns `TRUE`. -/
theorem output_name_cut :
    (clientGenerateInOutFilenamesFromPath 100 (List.replicate 93 97)).toOption.map
        (fun r => (r.1, (cString r.2.2).toOption)) = some
        (true, some (outF ++ List.replicate 92 97)) ∧
      ¬ NamesFiles 100 (List.replicate 93 97) := by
  refine ⟨by decide +kernel, fun hnames => ?_⟩
  obtain ⟨found, inFile, outFile, hrun, hfits, -⟩ := hnames
  have hlast : (components (List.replicate 93 97)).getLast?
      = some (List.replicate 93 97) := by
    decide +kernel
  cases (generate_name hlast (by decide)).symm.trans hrun
  obtain ⟨name, hname, -, hout⟩ := hfits.mp rfl
  cases hlast.symm.trans hname
  exact absurd hout (by decide)

end Names

end Pyramid
