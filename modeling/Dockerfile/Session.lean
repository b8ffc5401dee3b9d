import Dockerfile.Cache
import Dockerfile.Hover
import Dockerfile.Settings

/-!
# Sessions

A session answers one hover after the other. A text is taken apart when it comes up first; the
documents of the texts that came up last are kept, so that a text that comes back soon is not taken
apart again. How many are kept is a setting.
-/

namespace Dockerfile

/-- What is asked for: a place of a text, and the documentation that is to be shown. -/
structure Query where
  text : List Char
  place : Position
  provider : Provider

/-- The answer to a query on its own. -/
def Query.answer (q : Query) : Option (List Char) := hover q.provider q.text q.place

/-- The documents of the texts that came up last. -/
abbrev Session := RecentCache (List Char) Document

namespace Session

/-- Before the first query. -/
def start (settings : Settings) : Session := .empty settings.cacheSize.toNat

/-- Answers a query from the document that is kept, or from a new one. -/
def ask (s : Session) (q : Query) : Option (List Char) × Session :=
  let (document, s') := s.fetch Document.ofText q.text
  (document.hover q.provider q.place, s')

/-- Answers queries one after the other. -/
def askAll (s : Session) : List Query → List (Option (List Char)) × Session
  | [] => ([], s)
  | q :: more =>
    let (answer, s') := s.ask q
    let (answers, s'') := s'.askAll more
    (answer :: answers, s'')

end Session

end Dockerfile
