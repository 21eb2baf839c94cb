import LiveMarkup.Digest.Blake3
import LiveMarkup.Markup.Forest

/-!
# Fingerprints of forests

The fingerprint of a tree is the hash of its transcript, a string of bytes that lists the nodes in document order. Texts
are written after their length and every node ends with the number of its children, so that two trees with one transcript
are equal, and what is hashed depends on nothing but the tree.
-/

namespace LiveMarkup

namespace Transcript

/-- The lowest bytes of a number, up to a count of them, the lowest first. -/
def lowBytes : (count : Nat) → Nat → List UInt8
  | 0, _ => []
  | count + 1, n => UInt8.ofNat n :: lowBytes count (n / 256)

/-- A number as eight bytes, the lowest first. -/
def number (n : Nat) : List UInt8 :=
  lowBytes 8 n

/-- A text after the number of its bytes. -/
def text (s : String) : List UInt8 :=
  number s.utf8ByteSize ++ s.toUTF8.toList

/-- A name: its namespace, then its base name. -/
def name (q : QName) : List UInt8 :=
  text q.space ++ text q.base

/-- An attribute: its name, then its value. -/
def ofAttribute (a : Attribute) : List UInt8 :=
  name a.name ++ text a.value

/-- The byte that stands before the root, an element or a text. -/
def rootTag : UInt8 := 0

@[inherit_doc rootTag]
def elementTag : UInt8 := 1

@[inherit_doc rootTag]
def leafTag : UInt8 := 2

end Transcript

namespace Forest

open Transcript

/-- The transcript of the nodes of a forest, with further bytes after it. A tree within a tree is written once, however
deep it stands. -/
def transcriptBefore : Forest → List UInt8 → List UInt8
  | nil, rest => rest
  | leaf s next, rest => leafTag :: (text s ++ (number 0 ++ next.transcriptBefore rest))
  | element q attributes children next, rest =>
    elementTag :: (name q ++ (number attributes.length ++ (attributes.flatMap ofAttribute ++
      (number children.length ++ children.transcriptBefore (next.transcriptBefore rest)))))

/-- The transcript of the nodes of a forest. -/
def transcript (f : Forest) : List UInt8 :=
  f.transcriptBefore []

/-- The further bytes stay as they are. -/
theorem transcriptBefore_append (f : Forest) (a b : List UInt8) :
    f.transcriptBefore (a ++ b) = f.transcriptBefore a ++ b := by
  induction f generalizing a with
  | nil => rfl
  | leaf s next ih => simp only [transcriptBefore, ih, List.append_assoc, List.cons_append]
  | element q attributes children next ihc ihn =>
    simp only [transcriptBefore, ihn, ihc, List.append_assoc, List.cons_append]

/-- The further bytes stand after the transcript. -/
theorem transcriptBefore_eq (f : Forest) (rest : List UInt8) : f.transcriptBefore rest = f.transcript ++ rest :=
  transcriptBefore_append f [] rest

/-- No node, no byte. -/
theorem transcript_nil : nil.transcript = [] :=
  rfl

/-- A text is written as its tag, its bytes and no children. -/
theorem transcript_leaf (s : String) (next : Forest) :
    (leaf s next).transcript = leafTag :: (text s ++ number 0 ++ next.transcript) := by
  simp only [transcript, transcriptBefore, List.append_assoc]

/-- An element is written as its tag, its name, its attributes, the number of its children, and the children. -/
theorem transcript_element (q : QName) (attributes : List Attribute) (children next : Forest) :
    (element q attributes children next).transcript =
      elementTag :: (name q ++ number attributes.length ++ attributes.flatMap ofAttribute ++ number children.length ++
        children.transcript ++ next.transcript) := by
  rw [transcript, transcriptBefore, transcriptBefore_eq children]
  simp only [transcript, List.append_assoc]

end Forest

open Transcript in
/-- The transcript of a root with a forest below it. -/
def Forest.rootTranscript (f : Forest) : List UInt8 :=
  rootTag :: (number f.length ++ f.transcript)

end LiveMarkup
