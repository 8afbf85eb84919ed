import ReversePolish.Tree.Walk

/-! A transcript keeps the tokens it is fed, without their outer blanks, and writes them as one line.
Traversing a tree writes its transcript and feeds the same tokens to another sink on the way. -/
namespace ReversePolish

/-- The recorded tokens, the latest first. -/
structure Transcript where
  recorded : List Text

namespace Transcript

def empty : Transcript := ⟨[]⟩

def submit (t : Transcript) (token : Text) : Transcript := ⟨token.trim :: t.recorded⟩

def tokens (t : Transcript) : List Text := t.recorded.reverse

/-- The tokens with one space between neighbours. Empty tokens at either end leave no trace. -/
def line (t : Transcript) : Text := (Text.joined t.tokens).trim

end Transcript

namespace Tree

/-- Feeds every token to a transcript and a visitor, in this order. -/
def traverse {σ : Type} (submit : σ → Text → σ) (visitor : σ) (t : Tree) : Text × σ :=
  let (transcript, visitor) := t.crawl
    (fun (transcript, visitor) token => (transcript.submit token, submit visitor token))
    (Transcript.empty, visitor)
  (transcript.line, visitor)

def rpn (t : Tree) : Text := (t.crawl Transcript.submit Transcript.empty).line

end Tree
end ReversePolish
