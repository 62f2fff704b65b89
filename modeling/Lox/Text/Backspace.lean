import Lox.Text.Cluster

/-!
# Backspaces

A line that was typed may hold backspaces. Each takes back the cluster before it, if any is left;
what remains is the text that was meant. A text without backspaces remains as it is.
-/

namespace Lox.Text

def backspace : Char := '\x08'

/-- What has been typed: the characters, last first, and the size of each cluster in bytes. -/
structure Typed where
  chars : List Char := []
  sizes : List Nat := []

namespace Typed

/-- The size of a cluster is kept in one byte, so that of a very long one only its end is taken
back. -/
def sizeOf (cluster : List Char) : Nat := cluster.foldl (fun size c => size + c.utf8Size) 0 % 256

/-- Takes back so many bytes, and the whole of a character that this would cut. -/
def takeBack : Nat → List Char → List Char
  | _, [] => []
  | size, c :: cs => if size = 0 then c :: cs else takeBack (size - c.utf8Size) cs

def read (typed : Typed) (cluster : List Char) : Typed :=
  if cluster = [backspace] then
    match typed.sizes with
    | [] => typed
    | size :: sizes => ⟨takeBack size typed.chars, sizes⟩
  else ⟨cluster.reverse ++ typed.chars, sizeOf cluster :: typed.sizes⟩

def readAll (cs : List Char) : Typed := (clusters cs).foldl read {}

end Typed

/-- The text that is left when its backspaces have done their work. -/
def withoutBackspaces (s : String) : String := String.ofList (Typed.readAll s.toList).chars.reverse

theorem Typed.chars_foldl_read {parts : List (List Char)} (h : [backspace] ∉ parts) (typed : Typed) :
    (parts.foldl read typed).chars.reverse = typed.chars.reverse ++ parts.flatten := by
  induction parts generalizing typed with
  | nil => simp
  | cons part parts ih =>
    obtain ⟨hne, hrest⟩ := not_or.1 (mt List.mem_cons.2 h)
    have hpart : part ≠ [backspace] := fun he => hne he.symm
    rw [List.foldl_cons, ih hrest]
    simp [read, hpart]

/-- Without a backspace nothing is taken back. -/
theorem withoutBackspaces_eq_self {s : String} (h : backspace ∉ s.toList) :
    withoutBackspaces s = s := by
  have hparts : [backspace] ∉ clusters s.toList := by
    intro hm
    apply h
    rw [← flatten_clusters s.toList]
    exact List.mem_flatten.2 ⟨_, hm, List.mem_singleton.2 rfl⟩
  simp [withoutBackspaces, Typed.readAll, Typed.chars_foldl_read hparts]

end Lox.Text
