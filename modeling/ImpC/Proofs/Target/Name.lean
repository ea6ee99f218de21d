import Mathlib.Data.List.Perm.Basic
import Mathlib.Data.List.Nodup
import ImpC.Target.Lower
import ImpC.Proofs.Token.Accepted

/-!
# Names in C

The search for a suffix always succeeds, since there are more suffixes to try than names to avoid. So
the names of different variables differ, none is reserved, and identifiers stay identifiers. Only a
variable whose name is reserved, or that of an earlier variable, is renamed, to the first suffix that
is free.
-/
namespace ImpC.Target

open ImpC.C

/-- Different numbers give different names. -/
theorem suffixed_injective {name : Text} {m n : Nat} (h : suffixed name m = suffixed name n) :
    m = n := by
  have hdigits : Nat.toDigits 10 m = Nat.toDigits 10 n :=
    (List.cons.inj (List.append_cancel_left h)).2
  calc
    m = Nat.ofDigitChars 10 (Nat.toDigits 10 m) 0 := Nat.ofDigitChars_ten_toDigits.symm
    _ = n := by rw [hdigits, Nat.ofDigitChars_ten_toDigits]

/-- Fewer names than there are suffixes cannot take them all. -/
theorem exists_free_suffix {avoided : List Text} {bound : Nat} (h : avoided.length < bound)
    (name : Text) : ∃ n ∈ List.range' 1 bound, suffixed name n ∉ avoided := by
  refine Classical.byContradiction fun hnone => ?_
  have hsubset : (List.range' 1 bound).map (suffixed name) ⊆ avoided := by
    intro t ht
    obtain ⟨n, hn, rfl⟩ := List.mem_map.mp ht
    exact Classical.byContradiction fun hfree => hnone ⟨n, hn, hfree⟩
  have hnodup : ((List.range' 1 bound).map (suffixed name)).Nodup :=
    (List.nodup_range' 1).map fun _ _ => suffixed_injective
  have hlength := (List.subperm_of_subset hnodup hsubset).length_le
  rw [List.length_map, List.length_range'] at hlength
  omega

/-- A name that can be given: it is not in use, no variable is called so, and it is not reserved. -/
def IsFree (sources taken : List Text) (name : Text) : Prop :=
  name ∉ taken ∧ name ∉ sources ∧ name ∉ reserved

instance (sources taken : List Text) (name : Text) : Decidable (IsFree sources taken name) :=
  inferInstanceAs (Decidable (_ ∧ _ ∧ _))

/-- The number is the first whose suffix makes the name free, and it is one of those tried. -/
structure FirstFree (sources taken : List Text) (name : Text) (n : Nat) : Prop where
  pos : 1 ≤ n
  bound : n ≤ 2 * sources.length + reserved.length + 1
  free : IsFree sources taken (suffixed name n)
  least : ∀ m, 1 ≤ m → m < n → ¬ IsFree sources taken (suffixed name m)

theorem FirstFree.congr {sources taken taken' : List Text} {name : Text} {n : Nat}
    (h : FirstFree sources taken name n) (hmem : ∀ t, t ∈ taken ↔ t ∈ taken') :
    FirstFree sources taken' name n := by
  have hfree (t : Text) : IsFree sources taken t ↔ IsFree sources taken' t := by
    rw [IsFree, hmem, IsFree]
  exact ⟨h.pos, h.bound, (hfree _).mp h.free,
    fun m hm hlt hfree' => h.least m hm hlt ((hfree _).mpr hfree')⟩

/-- A variable keeps its name, or gets the first suffix that makes it differ from all names there
are. -/
theorem chooseName_cases {sources taken : List Text} (h : taken.length ≤ sources.length)
    (name : Text) :
    (chooseName sources taken name = name ∧ name ∉ reserved ∧ name ∉ taken) ∨
      ∃ n, chooseName sources taken name = suffixed name n ∧ FirstFree sources taken name n := by
  unfold chooseName
  split
  · rename_i hname
    exact .inl ⟨rfl, hname⟩
  · right
    have hlength : (taken ++ (sources ++ reserved)).length <
        2 * sources.length + reserved.length + 1 := by
      rw [List.length_append, List.length_append]
      omega
    obtain ⟨n, hn, hfree⟩ := exists_free_suffix hlength name
    simp only [List.mem_append, not_or] at hfree
    dsimp only
    split
    · rename_i m hm
      obtain ⟨hfound, hmem, hleast⟩ := List.find?_range'_eq_some.mp hm
      rw [List.mem_range'_1] at hmem
      refine ⟨m, rfl, hmem.1, by omega, of_decide_eq_true hfound, fun k hk hlt hkfree => ?_⟩
      have hnot := hleast k hk hlt
      rw [Bool.not_eq_true', decide_eq_false_iff_not] at hnot
      exact hnot hkfree
    · rename_i hnone
      exact absurd (decide_eq_true hfree) (List.find?_eq_none.mp hnone n hn)

/-- Among the candidates there is a free one, since there are more of them than names in use. -/
theorem chooseName_fresh {sources taken : List Text} (h : taken.length ≤ sources.length)
    (name : Text) :
    chooseName sources taken name ∉ taken ∧ chooseName sources taken name ∉ reserved := by
  obtain ⟨heq, hreserved, htaken⟩ | ⟨n, heq, hn⟩ := chooseName_cases h name
  · rw [heq]
    exact ⟨htaken, hreserved⟩
  · rw [heq]
    exact ⟨hn.free.1, hn.free.2.2⟩

theorem isWord_suffixed {name : Text} (h : isWord name = true) (n : Nat) :
    isWord (suffixed name n) = true := by
  cases name with
  | nil => cases h
  | cons c t =>
    simp only [isWord, Bool.and_eq_true, List.all_eq_true] at h
    have hdigits : ∀ d ∈ Text.ofNat n, Pattern.inWord d = true :=
      fun d hd => inWord_digit (digits_ofNat n d hd)
    simp only [suffixed, List.cons_append, isWord, Bool.and_eq_true, List.all_eq_true,
      List.mem_append, List.mem_cons]
    refine ⟨h.1, ?_⟩
    rintro d (hd | rfl | hd)
    · exact h.2 d hd
    · decide
    · exact hdigits d hd

/-- A suffix has an underscore, which no keyword has. -/
theorem ofWord?_suffixed (name : Text) (n : Nat) : Keyword.ofWord? (suffixed name n) = none := by
  have hkeywords : Keyword.all.all (fun k => !k.spelling.contains '_') = true := by decide
  have hmem : '_' ∈ (suffixed name n).map Char.toLower :=
    List.mem_map.mpr ⟨'_', by simp [suffixed], rfl⟩
  rw [Keyword.ofWord?, List.find?_eq_none]
  intro k hk heq
  have hnot := List.all_eq_true.mp hkeywords k hk
  rw [eq_of_beq heq, Bool.not_eq_true', List.contains_eq_mem, decide_eq_false_iff_not] at hnot
  exact hnot hmem

theorem isIdentifier_suffixed {name : Text} (h : Pattern.IsIdentifier name) (n : Nat) :
    Pattern.IsIdentifier (suffixed name n) :=
  Pattern.isIdentifier_iff.mpr
    ⟨isWord_suffixed (Pattern.isIdentifier_iff.mp h).1 n, ofWord?_suffixed name n⟩

theorem chooseNames_length (sources taken names : List Text) :
    (chooseNames sources taken names).length = names.length := by
  induction names generalizing taken with
  | nil => rfl
  | cons name names ih => simp [chooseNames, ih]

/-- The chosen names are new and differ from each other. -/
theorem chooseNames_fresh {sources taken names : List Text}
    (h : taken.length + names.length ≤ sources.length) :
    (∀ chosen ∈ chooseNames sources taken names, chosen ∉ taken ∧ chosen ∉ reserved) ∧
      (chooseNames sources taken names).Nodup := by
  induction names generalizing taken with
  | nil => simp [chooseNames]
  | cons name names ih =>
    rw [List.length_cons] at h
    have hfirst := chooseName_fresh (show taken.length ≤ sources.length by omega) name
    obtain ⟨hmore, hnodup⟩ := @ih (chooseName sources taken name :: taken)
      (by rw [List.length_cons]; omega)
    simp only [List.mem_cons, not_or] at hmore
    simp only [chooseNames, List.forall_mem_cons, List.nodup_cons]
    exact ⟨⟨hfirst, fun chosen hchosen => ⟨(hmore chosen hchosen).1.2, (hmore chosen hchosen).2⟩⟩,
      fun hmem => (hmore _ hmem).1.1 rfl, hnodup⟩

theorem assignNames_length (sources : List Text) :
    (assignNames sources).length = sources.length :=
  chooseNames_length sources [] sources

/-- No two variables get the same name. -/
theorem assignNames_nodup (sources : List Text) : (assignNames sources).Nodup :=
  (chooseNames_fresh (by simp)).2

theorem assignNames_not_reserved {sources : List Text} {name : Text}
    (h : name ∈ assignNames sources) : name ∉ reserved :=
  ((chooseNames_fresh (by simp)).1 name h).2

/-- A variable called `name`, after those called `earlier` that are named `taken`, gets its own name
if this is not reserved and no variable before it is called so. Otherwise it gets the first free
suffix. -/
inductive Becomes (sources earlier taken : List Text) (name : Text) : Text → Prop
  | kept (hreserved : name ∉ reserved) (hearlier : name ∉ earlier) :
    Becomes sources earlier taken name name
  | renamed (h : name ∈ reserved ∨ name ∈ earlier) {n : Nat} (hn : FirstFree sources taken name n) :
    Becomes sources earlier taken name (suffixed name n)

/-- The names of the variables called `earlier` have been chosen: those of them that are in use are
the ones that are not reserved. -/
structure Settled (sources taken earlier : List Text) : Prop where
  length : taken.length = earlier.length
  kept : ∀ name ∈ sources, name ∉ reserved → (name ∈ taken ↔ name ∈ earlier)

/-- The name that was chosen is taken from then on. -/
theorem Settled.next {sources taken earlier : List Text} (h : Settled sources taken earlier)
    (hlength : earlier.length ≤ sources.length) (name : Text) (hname : name ∈ sources) :
    Settled sources (chooseName sources taken name :: taken) (earlier ++ [name]) ∧
      Becomes sources earlier taken name (chooseName sources taken name) := by
  by_cases hkept : name ∉ reserved ∧ name ∉ taken
  · have hchosen : chooseName sources taken name = name := if_pos hkept
    have hearlier : name ∉ earlier := fun hmem => hkept.2 ((h.kept name hname hkept.1).mpr hmem)
    rw [hchosen]
    refine ⟨⟨by simp [h.length], fun other hother hfree => ?_⟩, .kept hkept.1 hearlier⟩
    simp [h.kept other hother hfree, or_comm]
  · have hearlier : name ∈ reserved ∨ name ∈ earlier := by
      by_cases hreserved : name ∈ reserved
      · exact .inl hreserved
      · have htaken : name ∈ taken := Classical.byContradiction fun hnot => hkept ⟨hreserved, hnot⟩
        exact .inr ((h.kept name hname hreserved).mp htaken)
    obtain ⟨-, hkept'⟩ | ⟨n, hchosen, hn⟩ := chooseName_cases (h.length ▸ hlength) name
    · exact absurd hkept' hkept
    · rw [hchosen]
      refine ⟨⟨by simp [h.length], fun other hother hfree => ?_⟩, .renamed hearlier hn⟩
      -- the new name is not that of a variable, and `name` itself is in use already
      have hne : other ≠ suffixed name n := fun heq => hn.free.2.1 (heq ▸ hother)
      have hsame : other = name → other ∈ earlier := by
        rintro rfl
        exact hearlier.resolve_left hfree
      simp only [List.mem_cons, hne, false_or, List.mem_append, List.not_mem_nil, or_false,
        h.kept other hother hfree]
      exact ⟨.inl, fun hor => hor.elim id hsame⟩

theorem chooseNames_becomes {sources taken earlier names : List Text}
    (h : Settled sources taken earlier) (hsources : sources = earlier ++ names) {i : Nat}
    {name : Text} (hname : names[i]? = some name) :
    ∃ chosen, (chooseNames sources taken names)[i]? = some chosen ∧
      Becomes sources (earlier ++ names.take i)
        (((chooseNames sources taken names).take i).reverse ++ taken) name chosen := by
  induction names generalizing taken earlier i with
  | nil => cases hname
  | cons first names ih =>
    have hlength : earlier.length ≤ sources.length := by simp [hsources]
    obtain ⟨hnext, hfirst⟩ := h.next hlength first (by simp [hsources])
    cases i with
    | zero =>
      obtain rfl : first = name := Option.some.inj hname
      refine ⟨_, rfl, ?_⟩
      rw [List.take_zero, List.append_nil, List.take_zero]
      exact hfirst
    | succ i =>
      obtain ⟨chosen, hchosen, hbecomes⟩ := ih hnext (by simp [hsources]) hname
      refine ⟨chosen, hchosen, ?_⟩
      rw [List.append_assoc] at hbecomes
      rw [chooseNames, List.take_succ_cons, List.take_succ_cons, List.reverse_cons,
        List.append_assoc]
      exact hbecomes

/-- Each variable gets its own name, with the least number that is free. -/
theorem assignNames_becomes {sources : List Text} {i : Nat} {name : Text}
    (h : sources[i]? = some name) : ∃ chosen, (assignNames sources)[i]? = some chosen ∧
      Becomes sources (sources.take i) ((assignNames sources).take i) name chosen := by
  have hstart : Settled sources [] [] := ⟨rfl, by simp⟩
  obtain ⟨chosen, hchosen, hbecomes⟩ := chooseNames_becomes hstart rfl h
  refine ⟨chosen, hchosen, ?_⟩
  rw [List.nil_append, List.append_nil] at hbecomes
  cases hbecomes with
  | kept hreserved hearlier => exact .kept hreserved hearlier
  | renamed hname hn => exact .renamed hname (hn.congr fun _ => List.mem_reverse)

theorem mem_assignNames {sources : List Text} {i : Nat} {chosen : Text}
    (h : (assignNames sources)[i]? = some chosen) : ∃ name, sources[i]? = some name ∧
      Becomes sources (sources.take i) ((assignNames sources).take i) name chosen := by
  obtain ⟨hlt, -⟩ := List.getElem?_eq_some_iff.mp h
  rw [assignNames_length] at hlt
  have hname := List.getElem?_eq_getElem hlt
  obtain ⟨chosen', hchosen, hbecomes⟩ := assignNames_becomes hname
  obtain rfl := Option.some.inj (hchosen.symm.trans h)
  exact ⟨_, hname, hbecomes⟩

/-- What a suffix preserves passes from the names of the variables to those in C. -/
theorem assignNames_preserve {P : Text → Prop} (hP : ∀ name, P name → ∀ n, P (suffixed name n))
    {sources : List Text} (h : ∀ name ∈ sources, P name) :
    ∀ chosen ∈ assignNames sources, P chosen := by
  intro chosen hmem
  obtain ⟨i, hi⟩ := List.mem_iff_getElem?.mp hmem
  obtain ⟨name, hname, hbecomes⟩ := mem_assignNames hi
  have hsource := h name (List.mem_of_getElem? hname)
  cases hbecomes with
  | kept => exact hsource
  | renamed => exact hP name hsource _

theorem isWord_assignNames {sources : List Text} (h : ∀ n ∈ sources, isWord n = true) :
    ∀ name ∈ assignNames sources, isWord name = true :=
  assignNames_preserve (fun _ => isWord_suffixed) h

/-- The names in C are distinct and not reserved. The first variable of a name that is not reserved
keeps it, and every other one gets the first suffix that makes it free. Identifiers stay
identifiers. -/
theorem assignNames_spec (sources : List Text) :
    (assignNames sources).length = sources.length ∧ (assignNames sources).Nodup ∧
      (∀ chosen ∈ assignNames sources, chosen ∉ reserved) ∧
      (∀ i name, sources[i]? = some name → ∃ chosen, (assignNames sources)[i]? = some chosen ∧
        Becomes sources (sources.take i) ((assignNames sources).take i) name chosen) ∧
      ((∀ name ∈ sources, Pattern.IsIdentifier name) →
        ∀ chosen ∈ assignNames sources, Pattern.IsIdentifier chosen) :=
  ⟨assignNames_length sources, assignNames_nodup sources, fun _ => assignNames_not_reserved,
    fun _ _ => assignNames_becomes, assignNames_preserve fun _ => isIdentifier_suffixed⟩

end ImpC.Target
