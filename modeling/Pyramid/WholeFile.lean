/-
# `Pyramid.WholeFile` — many workers find what one would have found

A file that is cut at newlines is read line by line as its parts are, one after
the other, by `fgets` too, which may take several calls for a line.  `dos.sh`
cuts at newlines.  So the largest number of the pieces, which is what a job comes
to (`rest_complete`), is that of the file (`whole_file`).
-/
import Pyramid.Largest
import Pyramid.Split
import Pyramid.Totals

namespace Pyramid

/-! ## Ends of lines -/

theorem unterminated_append {a b : Bytes} (hb : b ≠ []) :
    unterminated (a ++ b) = unterminated b := by
  obtain ⟨d, b, rfl⟩ := List.exists_cons_of_ne_nil hb
  induction a with
  | nil => rfl
  | cons c a ih =>
      cases a with
      | nil => rfl
      | cons e a => exact ih

theorem newline_mem {a : Bytes} (ha : a ≠ []) (h : unterminated a = false) :
    (10 : UInt8) ∈ a := by
  have hlast := List.dropLast_append_getLast ha
  rw [← hlast, unterminated_append (List.cons_ne_nil _ _), unterminated] at h
  have hten : a.getLast ha = 10 := not_not.mp (of_decide_eq_false h)
  exact hten ▸ List.getLast_mem ha

theorem unterminated_flatten {as : List Bytes}
    (h : ∀ a ∈ as, unterminated a = false) :
    unterminated as.flatten = false := by
  induction as with
  | nil => rfl
  | cons a as ih =>
      have hrest := ih fun b hb => h b (List.mem_cons_of_mem a hb)
      rw [List.flatten_cons]
      by_cases hnil : as.flatten = []
      · rw [hnil, List.append_nil]
        exact h a List.mem_cons_self
      · rw [unterminated_append hnil]
        exact hrest

/-! ## Reading parts -/

/-- A call that finds a newline does not look behind it. -/
theorem fgets_within {a : Bytes} (h : (10 : UInt8) ∈ a) (b : Bytes) : ∀ room,
    fgets room (a ++ b) = ((fgets room a).1, (fgets room a).2 ++ b) := by
  induction a with
  | nil => exact absurd h List.not_mem_nil
  | cons c a ih =>
      intro room
      cases room with
      | zero => rfl
      | succ room =>
          by_cases hc : c = 10
          · rw [List.cons_append, fgets, if_pos hc, fgets, if_pos hc]
          · have hmem : (10 : UInt8) ∈ a :=
              (List.mem_cons.mp h).resolve_left fun heq => hc heq.symm
            rw [List.cons_append, fgets, if_neg hc, fgets, if_neg hc, ih hmem room]

/-- The induction is on the length of the first part: each call
takes something of it. -/
theorem fgetsLines_append (b : Bytes) {n : Nat} :
    ∀ {a : Bytes}, a.length ≤ n → unterminated a = false →
    fgetsLines (a ++ b) = fgetsLines a ++ fgetsLines b := by
  induction n with
  | zero =>
      intro a hle _
      rw [List.eq_nil_of_length_eq_zero (Nat.le_zero.mp hle)]
      rfl
  | succ n ih =>
      intro a hle hends
      cases a with
      | nil => rfl
      | cons c a =>
          have hne : c :: a ≠ [] := List.cons_ne_nil c a
          have hcut := fgets_append 124 (c :: a)
          have hpos := List.length_pos_of_ne_nil (fgets_ne_nil 123 c a)
          generalize hline : (fgets 124 (c :: a)).1 = line at hcut hpos
          generalize hrest : (fgets 124 (c :: a)).2 = rest at hcut
          have hlen := congrArg List.length hcut
          rw [List.length_append] at hlen
          have hrestEnds : unterminated rest = false := by
            by_cases hnil : rest = []
            · rw [hnil]
              rfl
            · rw [← hcut, unterminated_append hnil] at hends
              exact hends
          have hwhole := fgets_within (newline_mem hne hends) b 124
          rw [hline, hrest] at hwhole
          rw [fgetsLines_step (List.append_ne_nil_of_left_ne_nil hne b) hwhole,
            ih (by omega) hrestEnds, fgetsLines_step hne (Prod.ext hline hrest),
            List.cons_append]

theorem asInts_append {a : Bytes} (h : unterminated a = false) (b : Bytes) :
    asInts (a ++ b) = asInts a ++ asInts b := by
  rw [asInts, fgetsLines_append b (Nat.le_refl _) h, List.map_append]
  rfl

/-- Every part but the last ends with a newline. -/
def CutAtLines : List Bytes → Prop
  | [] => True
  | [_] => True
  | a :: b :: as => unterminated a = false ∧ CutAtLines (b :: as)

theorem CutAtLines.tail {a : Bytes} {as : List Bytes} (h : CutAtLines (a :: as)) :
    CutAtLines as := by
  cases as with
  | nil => trivial
  | cons b as => exact h.2

theorem asInts_flatten {as : List Bytes} (h : CutAtLines as) :
    asInts as.flatten = as.flatMap asInts := by
  induction as with
  | nil => rfl
  | cons a as ih =>
      cases as with
      | nil =>
          rw [List.flatten_cons, List.flatten_nil, List.append_nil,
            List.flatMap_singleton]
      | cons b as =>
          rw [List.flatten_cons, asInts_append h.1, ih h.2, ← List.flatMap_cons]

/-! ## What `dos.sh` makes -/

theorem cutAtLines_fileLines : ∀ file, CutAtLines (fileLines file) := by
  intro file
  induction file with
  | nil => trivial
  | cons c file ih =>
      rw [fileLines]
      split
      · next hc =>
        cases hls : fileLines file with
        | nil => trivial
        | cons l ls =>
            rw [hls] at ih
            exact ⟨by rw [hc]; rfl, ih⟩
      · split
        · trivial
        · next l ls hls =>
          have hl := fileLines_ne_nil file l (hls ▸ List.mem_cons_self)
          rw [hls] at ih
          cases ls with
          | nil => trivial
          | cons m ls => exact ⟨(unterminated_append (a := [c]) hl).trans ih.1, ih.2⟩

theorem CutAtLines.split {as bs : List Bytes} (h : CutAtLines (as ++ bs))
    (hbs : bs ≠ []) :
    (∀ a ∈ as, unterminated a = false) ∧ CutAtLines bs := by
  induction as with
  | nil => exact ⟨fun a ha => absurd ha List.not_mem_nil, h⟩
  | cons a as ih =>
      obtain ⟨hrest, hcut⟩ := ih h.tail
      refine ⟨fun x hx => ?_, hcut⟩
      rcases List.mem_cons.mp hx with rfl | hx
      · rw [List.cons_append] at h
        obtain ⟨b, bs', hne⟩ :=
          List.exists_cons_of_ne_nil (List.append_ne_nil_of_right_ne_nil as hbs)
        rw [hne] at h
        exact h.1
      · exact hrest x hx

theorem cutAtLines_cutLines (count : Nat) :
    ∀ fuel ls, CutAtLines ls → CutAtLines (cutLines count fuel ls) := by
  intro fuel
  induction fuel with
  | zero => exact fun _ _ => trivial
  | succ fuel ih =>
      intro ls hls
      cases ls with
      | nil => trivial
      | cons l ls =>
          rw [cutLines]
          by_cases hnil : (l :: ls).drop count = []
          · rw [hnil]
            cases fuel with
            | zero => trivial
            | succ fuel => trivial
          · have hsplit :
                CutAtLines ((l :: ls).take count ++ (l :: ls).drop count) := by
              rwa [List.take_append_drop]
            obtain ⟨hends, hcut⟩ := hsplit.split hnil
            have hrest := ih _ hcut
            cases hmore : cutLines count fuel ((l :: ls).drop count) with
            | nil => trivial
            | cons p ps =>
                rw [hmore] at hrest
                exact ⟨unterminated_flatten hends, hrest⟩

theorem cutAtLines_split {count : Nat} {file : Bytes} {pieces : List Bytes}
    (h : split count file = some pieces) :
    CutAtLines pieces := by
  rw [split] at h
  split at h
  · cases h
  · cases h
    exact cutAtLines_cutLines _ _ _ (cutAtLines_fileLines file)

/-- The numbers of a file are those of the pieces that `dos.sh` makes of it. -/
theorem asInts_dos {n : Nat} {file : Bytes} {pieces : List Bytes}
    (h : dos n file = some pieces) (hflat : pieces.flatten = file) :
    asInts file = pieces.flatMap asInts :=
  hflat ▸ asInts_flatten (cutAtLines_split h)

/-! ## The result of a file -/

namespace Cluster

variable {web : Bytes → Option Bytes} {supply : JobSupply} {config : Config}
  {ms : List (Move web)}
  {C : Cluster web}

/-- **Many workers find what one would have found.**  When no message is under way
and `dos.sh` has put the pieces that it makes of a file where the clients are told
they are, the result of the job is the largest of what its memory held and of the
numbers of the file, if the pieces cover the file. -/
theorem whole_file (hc : config.Unquoted) (hrun : Run supply config ms C)
    (hquiet : ∀ cfd l, C.link cfd = some l → l.underway = 0) {j n : Nat}
    (hstarted : (j, n) ∈ C.world.started) {file : Bytes} (hcovers : Covers n file)
    (hweb : ∀ pieces, dos n file = some pieces →
      ∀ i : Nat, i < n → web (C.world.server.pathOf j i) = pieces[i]?) :
    ∃ v, C.world.server.jobs.cell j = some v ∧
      IsGreatest (insert (supply.garbage j) {x | x ∈ asInts file}) v.job.result := by
  obtain ⟨-, v, hv, -, hmax⟩ := (hrun.ok hc).rest hquiet hstarted
  obtain ⟨pieces, hdos, hlen, -, hflat⟩ := hcovers
  have hnumbers :
      {x | ∃ i : Nat, i < n ∧
        ∃ file, web (C.world.server.pathOf j i) = some file ∧ x ∈ asInts file}
      = {x | x ∈ asInts file} := by
    refine Set.ext fun x => ?_
    show _ ↔ x ∈ asInts file
    rw [asInts_dos hdos hflat, List.mem_flatMap]
    constructor
    · rintro ⟨i, hi, piece, hpiece, hx⟩
      rw [hweb pieces hdos i hi] at hpiece
      exact ⟨piece, List.mem_of_getElem? hpiece, hx⟩
    · rintro ⟨piece, hpiece, hx⟩
      obtain ⟨i, hi⟩ := List.getElem?_of_mem hpiece
      have hlt : i < n := hlen ▸ (List.getElem?_eq_some_iff.mp hi).1
      exact ⟨i, hlt, piece, (hweb pieces hdos i hlt).trans hi, hx⟩
  exact ⟨v, hv, hnumbers ▸ hmax⟩

/-- The two pieces of four lines. -/
theorem whole_file_sample : ∃ C v, Run JobSupply.zeros Config.sample Move.sample C ∧
    C.world.server.jobs.cell 1 = some v ∧ v.job.result = 40 ∧
      IsGreatest (insert (JobSupply.zeros.garbage 1)
        {x | x ∈ asInts (ascii "7\n12\n-3\n40\n")}) v.job.result := by
  obtain ⟨C, hrun, hquiet, hstarted, hresult, hfirst, hsecond⟩ := sample_rest
  have hdos : dos 2 (ascii "7\n12\n-3\n40\n")
      = some [ascii "7\n12\n", ascii "-3\n40\n"] := by decide +kernel
  have hcovers : Covers 2 (ascii "7\n12\n-3\n40\n") :=
    ⟨_, hdos, rfl, by decide +kernel, by decide +kernel⟩
  have hweb : ∀ pieces, dos 2 (ascii "7\n12\n-3\n40\n") = some pieces →
      ∀ i : Nat, i < 2 → webHalves (C.world.server.pathOf 1 i) = pieces[i]? := by
    intro pieces hpieces i hi
    cases hdos.symm.trans hpieces
    cases i with
    | zero => exact hfirst
    | succ i =>
        obtain rfl : i = 0 := by omega
        exact hsecond
  obtain ⟨v, hv, hmax⟩ :=
    whole_file unquoted_sample hrun hquiet (hstarted ▸ List.mem_cons_self)
      hcovers hweb
  rw [hv] at hresult
  exact ⟨C, v, hrun, hv, Option.some.inj hresult, hmax⟩

end Cluster

end Pyramid
