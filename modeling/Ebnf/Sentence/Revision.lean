import Ebnf.Derivation
import Ebnf.Sentence.Edit

/-! Sentences under revision. The edits of a sentence and the single derivation steps, as data, and
what a sequence of them makes of a sentence. -/
namespace Ebnf

/-- What is put together to a sentence: the one at hand, or items given with the edit. -/
inductive Part where
  | sentence
  | given (items : List Item)

/-- The items of a part, where those of the sentence at hand are given. -/
def Part.fill (here : List Item) : Part → List Item
  | .sentence => here
  | .given items => items

/-- An edit of a sentence. -/
inductive Edit where
  | add (items : List Item)
  | insertAt (index : Int) (items : List Item)
  | removeAt (index : Int)
  | replaceAt (index : Int) (items : List Item)
  | slice (first last : Option Int) (stride : Stride)
  | join (parts : List Part)
  | derive (index : Int) (rule : Rule)
  | deriveLeftmost (rule : Rule)
  | deriveRightmost (rule : Rule)

namespace Sentence

def edited (s : Sentence) : Edit → Except Misuse Sentence
  | .add items => .ok (s.add items)
  | .insertAt index items => s.insertAt index items
  | .removeAt index => s.removeAt index
  | .replaceAt index items => s.replaceAt index items
  | .slice first last stride => .ok (s.slice first last stride)
  | .join parts => .ok (join (parts.flatMap (Part.fill (Item.ofSymbols s))))
  | .derive index rule => (s.derive index rule).map Derivation.derived
  | .deriveLeftmost rule => (s.deriveLeftmost rule).map Derivation.derived
  | .deriveRightmost rule => (s.deriveRightmost rule).map Derivation.derived

/-- What comes of each edit in turn. One that is refused leaves the sentence as it was. -/
def outcomes (s : Sentence) : List Edit → List (Except Misuse Sentence)
  | [] => []
  | edit :: edits =>
    match s.edited edit with
    | .ok t => .ok t :: t.outcomes edits
    | .error m => .error m :: s.outcomes edits

end Sentence

end Ebnf
