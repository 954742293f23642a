import Mathlib.Data.List.Infix
import SingleFile.Number.Power
import SingleFile.Proofs.SourceMap.Draft

/-!
# Drafts that count in words

Lines and columns are kept in words of 32 bits, which start over from zero where they overflow.
`Draft.insertInWords?` inserts text into a draft that counts so.  As long as all positions fit into
words afterwards none has overflowed, and it makes no difference (`insertInWords?_eq_some`).
-/

namespace SingleFile

namespace Position

variable {p : Position}

/-- What is left of a position in two words of 32 bits. -/
def inWords (p : Position) : Position := ⟨p.line % 2 ^ 32, p.column % 2 ^ 32⟩

def FitsWords (p : Position) : Prop := p.line < 2 ^ 32 ∧ p.column < 2 ^ 32

instance (p : Position) : Decidable p.FitsWords :=
  inferInstanceAs (Decidable (p.line < 2 ^ 32 ∧ p.column < 2 ^ 32))

theorem FitsWords.inWords_eq (h : p.FitsWords) : p.inWords = p :=
  eq_iff.2 ⟨Nat.mod_eq_of_lt h.1, Nat.mod_eq_of_lt h.2⟩

/-- The size of a text fits if it still does after what stands before it. -/
theorem FitsWords.of_after {cs : List Char} (h : (p.after cs).FitsWords) :
    (origin.after cs).FitsWords := by
  unfold FitsWords after at *
  unfold origin
  split at h
  · next hbreaks =>
    rw [if_pos hbreaks]
    exact ⟨Nat.two_pow_pos 32, by dsimp only at h ⊢; omega⟩
  · next hbreaks =>
    rw [if_neg hbreaks]
    exact ⟨by dsimp only at h ⊢; omega, h.2⟩

end Position

namespace Draft

variable {d d' : Draft} {pattern text : List Char}

/-- Inserts text where `insertBeforeLast?` does, and moves positions in words. -/
def insertInWords? (d : Draft) (pattern text : List Char) : Option Draft :=
  match splitLast? pattern d.code with
  | none => none
  | some (front, _) =>
    let spot := (Position.origin.after front).inWords
    let size := (Position.origin.after text).inWords
    some { d with
      code := front ++ text ++ d.code.drop front.length
      tip := (d.tip.shift spot size).inWords
      entries := d.entries.map fun e => { e with generated := (e.generated.shift spot size).inWords } }

/-- All positions of a draft fit into words: those of its mappings, and those up to which its code can
be read. -/
structure FitsWords (d : Draft) : Prop where
  code : ∀ a ∈ d.code.inits, (Position.origin.after a).FitsWords
  tip : d.tip.FitsWords
  entries : ∀ e ∈ d.entries, e.generated.FitsWords

instance (d : Draft) : Decidable d.FitsWords :=
  decidable_of_iff ((∀ a ∈ d.code.inits, (Position.origin.after a).FitsWords) ∧ d.tip.FitsWords ∧
      ∀ e ∈ d.entries, e.generated.FitsWords)
    ⟨fun ⟨h₁, h₂, h₃⟩ => ⟨h₁, h₂, h₃⟩, fun h => ⟨h.code, h.tip, h.entries⟩⟩

/-- An insertion after which all positions fit into words is the same in words. -/
theorem insertInWords?_eq_some (h : d.insertBeforeLast? pattern text = some d')
    (hfits : d'.FitsWords) : d.insertInWords? pattern text = some d' := by
  obtain ⟨front, back, hsplit, hcode, rfl⟩ := insertBeforeLast?_eq_some h
  have hspot : (Position.origin.after front).FitsWords := by
    refine hfits.code front ((List.mem_inits _ _).2 ?_)
    rw [List.append_assoc]
    exact List.prefix_append _ _
  have hsize : (Position.origin.after text).FitsWords := by
    have hafter := hfits.code (front ++ text) ((List.mem_inits _ _).2 (List.prefix_append _ _))
    rw [Position.after_append] at hafter
    exact hafter.of_after
  have hentries : d.entries.map (fun e => { e with
          generated := (e.generated.shift (.after .origin front) (.after .origin text)).inWords }) =
      d.entries.map fun e => { e with
          generated := e.generated.shift (.after .origin front) (.after .origin text) } := by
    refine List.map_congr_left fun e he => ?_
    rw [(hfits.entries _ (List.mem_map_of_mem he)).inWords_eq]
  have hdrop : d.code.drop front.length = pattern ++ back := by rw [hcode, List.drop_left]
  unfold insertInWords?
  rw [hsplit]
  dsimp only
  rw [hspot.inWords_eq, hsize.inWords_eq, hfits.tip.inWords_eq, hentries, hdrop]

end Draft

end SingleFile
