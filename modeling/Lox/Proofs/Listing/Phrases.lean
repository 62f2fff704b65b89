import Lox.Program.Listing

/-!
# Bracketed texts

A listing is made of words, of blanks between them and of brackets around them. As long as the words have no blank and
no bracket in them, a text can be taken apart in one way only.
-/

namespace Lox

/-- A word, or parts in brackets. -/
inductive Phrase where
  | word (text : String)
  | group (parts : List Phrase)

namespace Phrase

mutual

def text : Phrase → String
  | .word w => w
  | .group parts => form (texts parts)

def texts : List Phrase → List String
  | [] => []
  | o :: rest => o.text :: texts rest

end

def isDivider (c : Char) : Bool := c == ' ' || c == '(' || c == ')'

/-- What a test accepts is no divider, if the test turns the dividers down. -/
theorem isDivider_eq_false {test : Char → Bool} {c : Char} (hc : test c = true) (hspace : test ' ' = false)
    (hopen : test '(' = false) (hclose : test ')' = false) : isDivider c = false := by
  rw [Bool.eq_false_iff]
  intro hdivider
  simp only [isDivider, Bool.or_eq_true, beq_iff_eq] at hdivider
  rcases hdivider with (rfl | rfl) | rfl <;> simp_all

/-- The text can be told from what stands around it. -/
def IsWord (w : String) : Prop := w.toList ≠ [] ∧ ∀ c ∈ w.toList, isDivider c = false

theorem isWord_iff {w : String} : (!w.toList.isEmpty && w.toList.all (!isDivider ·)) = true ↔ IsWord w := by
  simp [IsWord]

instance : DecidablePred IsWord := fun _ => decidable_of_iff _ isWord_iff

mutual

def Legible : Phrase → Prop
  | .word w => IsWord w
  | .group parts => AllLegible parts

def AllLegible : List Phrase → Prop
  | [] => True
  | o :: rest => o.Legible ∧ AllLegible rest

end

/-! ## What a text starts with -/

/-- The text of a group after its first part. -/
def tail : List Phrase → List Char
  | [] => [')']
  | o :: rest => ' ' :: (o.text.toList ++ tail rest)

theorem toList_group_nil : (group []).text.toList = ['(', ')'] := rfl

theorem toList_group_cons (o : Phrase) (rest : List Phrase) :
    (group (o :: rest)).text.toList = '(' :: (o.text.toList ++ tail rest) := by
  have htail : ∀ (o : Phrase) (rest : List Phrase),
      [' '].intercalate ((texts (o :: rest)).map String.toList) ++ [')'] = o.text.toList ++ tail rest := by
    intro o rest
    induction rest generalizing o with
    | nil => simp [texts, tail]
    | cons p rest ih =>
      have hp := ih p
      simp only [texts, List.map_cons] at hp
      simp only [texts, List.map_cons, List.intercalate_cons_cons, tail, List.append_assoc,
        List.cons_append, List.nil_append, hp]
  rw [text, form, String.toList_append, String.toList_append, String.toList_intercalate, List.append_assoc]
  exact congrArg ('(' :: ·) (htail o rest)

/-- A part starts with a bracket that opens, or with no divider. -/
theorem Legible.first {o : Phrase} (h : o.Legible) :
    ∃ c cs, o.text.toList = c :: cs ∧ c ≠ ')' ∧ c ≠ ' ' := by
  cases o with
  | word w =>
    obtain ⟨hne, hwhole⟩ := h
    obtain ⟨c, cs, hw⟩ := List.exists_cons_of_ne_nil hne
    have hc := hwhole c (hw ▸ List.mem_cons_self)
    refine ⟨c, cs, hw, ?_, ?_⟩ <;> rintro rfl <;> cases hc
  | group parts =>
    cases parts with
    | nil => exact ⟨_, _, toList_group_nil, by decide, by decide⟩
    | cons p rest => exact ⟨_, _, toList_group_cons p rest, by decide, by decide⟩

/-! ## Taking a text apart -/

/-- The text is empty or starts with a divider. -/
def Divided (cs : List Char) : Prop := ∀ c ∈ cs.head?, isDivider c = true

theorem divided_tail (rest : List Phrase) (cs : List Char) : Divided (tail rest ++ cs) := by
  cases rest <;> rintro c ⟨⟩ <;> rfl

theorem IsWord.append_inj {v w : String} (hv : IsWord v) (hw : IsWord w) {cs ds : List Char}
    (hcs : Divided cs) (hds : Divided ds) (h : v.toList ++ cs = w.toList ++ ds) : v = w ∧ cs = ds := by
  have hspan : ∀ {v : String} {cs : List Char}, IsWord v → Divided cs →
      (v.toList ++ cs).takeWhile (!isDivider ·) = v.toList := by
    intro v cs hv hcs
    rw [List.takeWhile_append_of_pos fun c hc => by rw [hv.2 c hc]; rfl]
    cases cs with
    | nil => simp
    | cons c cs => simp [hcs c rfl]
  have hsame : v.toList = w.toList := by rw [← hspan hv hcs, h, hspan hw hds]
  refine ⟨String.toList_inj.1 hsame, ?_⟩
  rwa [hsame, List.append_cancel_left_eq] at h

theorem IsWord.not_group {v : String} (hv : IsWord v) (parts : List Phrase) (cs ds : List Char) :
    v.toList ++ cs ≠ (group parts).text.toList ++ ds := by
  obtain ⟨c, rest, hrest⟩ := List.exists_cons_of_ne_nil hv.1
  have hc : c ≠ '(' := by
    rintro rfl
    cases hv.2 '(' (hrest ▸ List.mem_cons_self)
  have hfirst : ∃ more, (group parts).text.toList = '(' :: more := by
    cases parts with
    | nil => exact ⟨_, toList_group_nil⟩
    | cons p rest => exact ⟨_, toList_group_cons p rest⟩
  obtain ⟨more, hmore⟩ := hfirst
  rw [hrest, hmore]
  exact fun h => hc (List.cons.inj h).1

theorem text_group_ne {w : String} (hw : IsWord w) (parts : List Phrase) : (group parts).text ≠ w := by
  intro h
  apply hw.not_group parts [] []
  rw [h]

/-- A group without parts is no other group. -/
theorem Legible.not_close {o : Phrase} (ho : o.Legible) (cs ds : List Char) : o.text.toList ++ cs ≠ ')' :: ds := by
  obtain ⟨c, rest, hrest, hc, -⟩ := ho.first
  rw [hrest]
  exact fun h => hc (List.cons.inj h).1

mutual

/-- The first part of a text and what follows it are determined. -/
theorem append_inj {o p : Phrase} (ho : o.Legible) (hp : p.Legible) {cs ds : List Char} (hcs : Divided cs)
    (hds : Divided ds) (h : o.text.toList ++ cs = p.text.toList ++ ds) : o = p ∧ cs = ds := by
  match o, p with
  | .word v, .word w =>
    obtain ⟨rfl, rfl⟩ := IsWord.append_inj ho hp hcs hds h
    exact ⟨rfl, rfl⟩
  | .word v, .group parts => exact absurd h (IsWord.not_group ho parts cs ds)
  | .group parts, .word w => exact absurd h.symm (IsWord.not_group hp parts ds cs)
  | .group [], .group [] => exact ⟨rfl, List.append_cancel_left h⟩
  | .group [], .group (p :: ps) =>
    rw [toList_group_cons, List.cons_append, List.append_assoc] at h
    exact absurd (List.cons.inj h).2.symm (hp.1.not_close _ _)
  | .group (o :: os), .group [] =>
    rw [toList_group_cons, List.cons_append, List.append_assoc] at h
    exact absurd (List.cons.inj h).2 (ho.1.not_close _ _)
  | .group (o :: os), .group (p :: ps) =>
    rw [toList_group_cons, toList_group_cons, List.cons_append, List.cons_append, List.append_assoc,
      List.append_assoc] at h
    obtain ⟨rfl, hrest⟩ := append_inj ho.1 hp.1 (divided_tail os cs) (divided_tail ps ds) (List.cons.inj h).2
    obtain ⟨rfl, rfl⟩ := tail_append_inj ho.2 hp.2 hrest
    exact ⟨rfl, rfl⟩

theorem tail_append_inj {os ps : List Phrase} (hos : AllLegible os) (hps : AllLegible ps) {cs ds : List Char}
    (h : tail os ++ cs = tail ps ++ ds) : os = ps ∧ cs = ds := by
  match os, ps with
  | [], [] => exact ⟨rfl, List.append_cancel_left h⟩
  | [], p :: ps => cases h
  | o :: os, [] => cases h
  | o :: os, p :: ps =>
    rw [tail, tail, List.cons_append, List.cons_append, List.append_assoc, List.append_assoc] at h
    obtain ⟨rfl, hrest⟩ := append_inj hos.1 hps.1 (divided_tail os cs) (divided_tail ps ds) (List.cons.inj h).2
    obtain ⟨rfl, rfl⟩ := tail_append_inj hos.2 hps.2 hrest
    exact ⟨rfl, rfl⟩

end

/-- A text is the text of one phrase only. -/
theorem eq_of_text_eq {o p : Phrase} (ho : o.Legible) (hp : p.Legible) (h : o.text = p.text) : o = p := by
  have hnil : Divided [] := by
    intro c hc
    cases hc
  exact (append_inj ho hp hnil hnil (congrArg (·.toList ++ []) h)).1

end Phrase

end Lox
