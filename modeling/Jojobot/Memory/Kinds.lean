import Jojobot.Memory.Types

namespace Memory
open Library

def workStatuses : List Text :=
  ["someday".toList,"next".toList,"now".toList,"waiting".toList,"done".toList]
def finished : Text := "done".toList
def statusKey : Text := "status".toList
def statusWord : Text := "status_word/".toList

def holdsColumns (kind : Text) : Bool := kind = "work".toList || kind = "project".toList

-- A shipped word means itself, whatever the instance maps it to.
def meaningOf (word : Text) (own : Fields) : Option Text :=
  let word := trim word
  match workStatuses.find? (· = word) with
  | some shipped => some shipped
  | none => do
    let mapped ← own[statusWord ++ word]?
    workStatuses.find? (· = trim mapped)

def isFinished (kind : Text) (fields own : Fields) : Bool :=
  holdsColumns kind && fields[statusKey]?.any (fun held => meaningOf held own = some finished)

end Memory
