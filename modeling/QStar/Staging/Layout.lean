import QStar.Base.Containment
import QStar.Staging.Exports

/-!
# The layout of a stage

Validation compares the destinations of a stage as they are written. Two spellings of
one file differ for it, and so do a file and a directory one of which is written with
dots or with a slash at its end; where the destinations lead is told by the names that
are left of them.
-/
namespace QStar.Staging

open QStar.Lib.CStrings QStar.Lib.FileTrees
open QStar.Lib.Results
open QStar.Base QStar.BuildGraph

/-- Where a destination of a stage leads. -/
def destinationPlace (root : Place) (s : Stage) (dst : Bytes) : Place :=
  placeAt root (pathJoin s.root dst)

/-- The destinations of a stage lead to different places, none of them above another, strictly below
the root of the stage. -/
structure LaidOut (root : Place) (s : Stage) : Prop where
  below : ∀ dst ∈ s.dsts, StrictlyBelow (placeAt root s.root) (destinationPlace root s dst)
  apart : s.dsts.Pairwise fun a b =>
    ¬destinationPlace root s a <:+ destinationPlace root s b ∧
      ¬destinationPlace root s b <:+ destinationPlace root s a

/-- The dots of the destinations do no harm: a destination with some of them enters more than it
leaves, and the names that are left of it are not those of another destination nor go on to those,
and the other way round. -/
structure DotsHarmless (dsts : List Bytes) : Prop where
  enters : ∀ dst ∈ dsts, Dotted dst → (names dst).count (ascii "..") < (entering (names dst)).length
  apart : ∀ a ∈ dsts, Dotted a → ∀ b ∈ dsts, b ≠ a →
    ¬keptNames (names a) <+: keptNames (names b) ∧ ¬keptNames (names b) <+: keptNames (names a)

section Written

variable {a b : Bytes}

theorem collision_of_start (ha : a ≠ []) (h : a ++ ascii "/" <+: b) :
    parentChildCollision a b = true ∧ parentChildCollision b a = true := by
  have hlength := h.length_le
  have hslash : (ascii "/").length = 1 := rfl
  rw [List.length_append, hslash] at hlength
  have hb : b ≠ [] := by
    rintro rfl
    simp at hlength
  refine ⟨?_, ?_⟩
  · have hno : ¬(a = [] ∨ b = [] ∨ a.length = b.length) := by
      rintro (hnil | hnil | hlen)
      · exact ha hnil
      · exact hb hnil
      · omega
    rw [parentChildCollision, if_neg hno, if_pos (by omega)]
    exact decide_eq_true h
  · have hno : ¬(b = [] ∨ a = [] ∨ b.length = a.length) := by
      rintro (hnil | hnil | hlen)
      · exact hb hnil
      · exact ha hnil
      · omega
    rw [parentChildCollision, if_neg hno, if_neg (by omega)]
    exact decide_eq_true h

/-- Destinations that are written differently and do not collide as they are written are names none
of which goes on to the other. -/
theorem not_prefix_of_no_collision (ha : a ≠ []) (hb : b ≠ []) (hne : a ≠ b)
    (h : parentChildCollision a b = false) : ¬names a <+: names b ∧ ¬names b <+: names a := by
  constructor
  · intro hprefix
    rcases names_prefix_iff.mp hprefix with heq | hslash
    · exact hne heq
    · rw [(collision_of_start ha hslash).1] at h
      cases h
  · intro hprefix
    rcases names_prefix_iff.mp hprefix with heq | hslash
    · exact hne heq.symm
    · rw [(collision_of_start hb hslash).2] at h
      cases h

theorem layoutConflict_none {dsts : List Bytes} (h : layoutConflict dsts = none) :
    dsts.Pairwise fun a b => parentChildCollision a b = false := by
  induction dsts with
  | nil => exact .nil
  | cons a rest ih =>
    rw [layoutConflict] at h
    split at h
    · cases h
    · next hnone =>
      refine List.pairwise_cons.mpr ⟨fun b hb => ?_, ih h⟩
      simpa using List.find?_eq_none.mp hnone b hb

end Written

/-- What the checks on the destinations have found. -/
theorem checked_destinations {visible : Visible} {g : Graph} {s : Stage}
    (h : validateStage visible g s = .ok ()) :
    s.dsts.Pairwise fun a b => a ≠ b ∧ parentChildCollision a b = false := by
  obtain ⟨_, h⟩ := guard_eq_ok.mp h
  obtain ⟨_, h⟩ := guard_eq_ok.mp h
  obtain ⟨_, h⟩ := guard_eq_ok.mp h
  obtain ⟨_, h⟩ := guard_eq_ok.mp h
  obtain ⟨hnodup, h⟩ := guard_eq_ok.mp h
  have hnodup : s.dsts.Nodup := by simpa using hnodup
  split at h
  · cases h
  · next hnone => exact hnodup.and (layoutConflict_none hnone)

section Laid

variable {root : Place} {s : Stage}

theorem destinationPlace_eq (hroot : isPackageRelative s.root = true) (root : Place) (dst : Bytes) :
    destinationPlace root s dst = placeAt (placeAt root s.root) dst :=
  placeAt_pathJoin hroot root dst

theorem below_iff (hroot : isPackageRelative s.root = true) {dst : Bytes}
    (hdst : isPackageRelative dst = true) :
    StrictlyBelow (placeAt root s.root) (destinationPlace root s dst) ↔
      (names dst).count (ascii "..") < (entering (names dst)).length := by
  rw [destinationPlace_eq hroot]
  exact strictlyBelow_leadsTo_iff (relative_dropLast hdst) _

theorem destinationPlace_kept (hroot : isPackageRelative s.root = true) {dst : Bytes}
    (hdst : isPackageRelative dst = true)
    (henters : (names dst).count (ascii "..") < (entering (names dst)).length) :
    destinationPlace root s dst = (keptNames (names dst)).reverse ++ placeAt root s.root := by
  rw [destinationPlace_eq hroot]
  exact leadsTo_keptNames (relative_dropLast hdst) henters _

theorem suffix_iff (hroot : isPackageRelative s.root = true) {a b : Bytes}
    (ha : isPackageRelative a = true) (hb : isPackageRelative b = true)
    (haenters : (names a).count (ascii "..") < (entering (names a)).length)
    (hbenters : (names b).count (ascii "..") < (entering (names b)).length) :
    destinationPlace root s a <:+ destinationPlace root s b ↔
      keptNames (names a) <+: keptNames (names b) := by
  rw [destinationPlace_kept hroot ha haenters, destinationPlace_kept hroot hb hbenters,
    ← List.reverse_prefix, List.reverse_append, List.reverse_append, List.prefix_append_right_inj,
    List.reverse_reverse, List.reverse_reverse]

end Laid

/-- The destinations of a validated stage lead to places apart from each other below its root if
and only if the dots in them do no harm. -/
theorem stage_laidOut_iff {visible : Visible} {g : Graph} {s : Stage} (root : Place)
    (h : validateStage visible g s = .ok ()) : LaidOut root s ↔ DotsHarmless s.dsts := by
  have hvalid := validStage_of_validate h
  have hchecked := checked_destinations h
  have hbelow : ∀ dst ∈ s.dsts,
      (StrictlyBelow (placeAt root s.root) (destinationPlace root s dst) ↔
        (names dst).count (ascii "..") < (entering (names dst)).length) :=
    fun dst hdst => below_iff hvalid.root (hvalid.dsts dst hdst)
  have hsuffix : (∀ dst ∈ s.dsts, (names dst).count (ascii "..") < (entering (names dst)).length) →
      ∀ a ∈ s.dsts, ∀ b ∈ s.dsts, (destinationPlace root s a <:+ destinationPlace root s b ↔
        keptNames (names a) <+: keptNames (names b)) :=
    fun henters a ha b hb => suffix_iff hvalid.root (hvalid.dsts a ha) (hvalid.dsts b hb)
      (henters a ha) (henters b hb)
  constructor
  · intro hlaid
    have henters := fun dst hdst => (hbelow dst hdst).mp (hlaid.below dst hdst)
    refine ⟨fun dst hdst _ => henters dst hdst, ?_⟩
    intro a ha _ b hb hne
    rw [← hsuffix henters a ha b hb, ← hsuffix henters b hb a ha]
    have hsymm : Std.Symm fun a b => ¬destinationPlace root s a <:+ destinationPlace root s b ∧
        ¬destinationPlace root s b <:+ destinationPlace root s a := ⟨fun _ _ => And.symm⟩
    exact hlaid.apart.forall ha hb (Ne.symm hne)
  · intro hdots
    have henters : ∀ dst ∈ s.dsts, (names dst).count (ascii "..") < (entering (names dst)).length := by
      intro dst hdst
      by_cases hdotted : Dotted dst
      · exact hdots.enters dst hdst hdotted
      · exact (kept_of_not_dotted hdotted).2
    refine ⟨fun dst hdst => (hbelow dst hdst).mpr (henters dst hdst), ?_⟩
    refine hchecked.imp_of_mem ?_
    rintro a b ha hb ⟨hne, hcollision⟩
    rw [hsuffix henters a ha b hb, hsuffix henters b hb a ha]
    by_cases hadotted : Dotted a
    · exact hdots.apart a ha hadotted b hb (Ne.symm hne)
    by_cases hbdotted : Dotted b
    · exact (hdots.apart b hb hbdotted a ha hne).symm
    -- the comparison of the written paths decides
    rw [(kept_of_not_dotted hadotted).1, (kept_of_not_dotted hbdotted).1]
    have hne_nil : ∀ dst ∈ s.dsts, dst ≠ [] := by
      rintro dst hdst rfl
      exact absurd (hvalid.dsts [] hdst) (by decide)
    exact not_prefix_of_no_collision (hne_nil a ha) (hne_nil b hb) hne hcollision

theorem site_laidOut_iff : LaidOut [] siteStage ↔ DotsHarmless siteStage.dsts :=
  @stage_laidOut_iff (fun _ _ => true) siteGraph siteStage [] rfl

/-- One page under two spellings of its name. -/
def twiceStage : Stage :=
  { siteStage with
    srcs := [ascii "src/page", ascii "src/other"]
    dsts := [ascii "page", ascii "./page"] }

/-- Both spellings are accepted, and they are one file. -/
theorem spellings_not_laidOut :
    validateStage (fun _ _ => true) siteGraph twiceStage = .ok () ∧ ¬LaidOut [] twiceStage := by
  refine ⟨rfl, fun hlaid => ?_⟩
  have hapart := (List.pairwise_cons.mp hlaid.apart).1 (ascii "./page") List.mem_cons_self
  exact absurd hapart (by decide)

end QStar.Staging
