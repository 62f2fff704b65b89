import Lox.Text.Cluster.Kind

/-!
# Clusters

`clusters` splits a text between any two characters that no rule keeps together. The rules look at
the kind of the next character and at the kinds before it, nearest first.
-/

namespace Lox.Text

namespace Cluster

/-- The kinds that are clusters of their own. -/
def Kind.isControl : Kind → Bool
  | carriageReturn | lineFeed | control => true
  | _ => false

/-- The kinds that belong to whatever stands before them. -/
def Kind.attaches : Kind → Bool
  | extender | linker | nonJoiner | joiner | spacingMark => true
  | _ => false

/-- The marks that may stand between a picture and a joiner. -/
def Kind.isMark : Kind → Bool
  | extender | linker | nonJoiner => true
  | _ => false

/-- The marks that may stand between the consonants of a conjunct. -/
def Kind.inConjunct : Kind → Bool
  | extender | linker | joiner => true
  | _ => false

/-- Neighbours within one syllable. -/
def inSyllable : Kind → Kind → Bool
  | .leadingJamo, .leadingJamo => true
  | .leadingJamo, .vowelJamo => true
  | .leadingJamo, .openSyllable => true
  | .leadingJamo, .closedSyllable => true
  | .openSyllable, .vowelJamo => true
  | .openSyllable, .trailingJamo => true
  | .vowelJamo, .vowelJamo => true
  | .vowelJamo, .trailingJamo => true
  | .closedSyllable, .trailingJamo => true
  | .trailingJamo, .trailingJamo => true
  | _, _ => false

/-- After a consonant and marks among which is a linker. -/
def afterLinkedConsonant (before : List Kind) : Bool :=
  (before.takeWhile Kind.inConjunct).contains .linker &&
    (before.dropWhile Kind.inConjunct).head? = some .consonant

/-- After a picture and a joiner. -/
def afterJoinedPicture : List Kind → Bool
  | .joiner :: earlier => (earlier.dropWhile Kind.isMark).head? = some .pictograph
  | _ => false

/-- After the first half of a flag: halves are paired from the left. -/
def afterHalfFlag (before : List Kind) : Bool :=
  (before.takeWhile (· = .regional)).length % 2 = 1

/-- Whether the next character belongs to the cluster of the one before it. -/
def joins (before : List Kind) (next : Kind) : Bool :=
  match before with
  | [] => false
  | last :: _ =>
    if last = .carriageReturn ∧ next = .lineFeed then true
    else if last.isControl || next.isControl then false
    else
      next.attaches || last = .prependMark || inSyllable last next ||
        (next = .consonant && afterLinkedConsonant before) ||
        (next = .pictograph && afterJoinedPicture before) ||
        (next = .regional && afterHalfFlag before)

/-- The clusters of a text that comes after characters of the kinds `before`. -/
def splitAfter (before : List Kind) : List Char → List (List Char)
  | [] => []
  | c :: cs =>
    let before := Kind.of c :: before
    match cs, splitAfter before cs with
    | d :: _, cluster :: rest =>
      if joins before (Kind.of d) then (c :: cluster) :: rest else [c] :: cluster :: rest
    | _, rest => [c] :: rest

/-- Clusters are the text again when put together. -/
theorem flatten_splitAfter (before : List Kind) (cs : List Char) :
    (splitAfter before cs).flatten = cs := by
  induction cs generalizing before with
  | nil => rfl
  | cons c cs ih =>
    have hrest := ih (Kind.of c :: before)
    simp only [splitAfter]
    split
    · next d ds cluster rest hs =>
      rw [hs] at hrest
      split <;> simpa using hrest
    · simpa using hrest

end Cluster

def clusters (cs : List Char) : List (List Char) := Cluster.splitAfter [] cs

@[simp] theorem flatten_clusters (cs : List Char) : (clusters cs).flatten = cs :=
  Cluster.flatten_splitAfter [] cs

end Lox.Text
