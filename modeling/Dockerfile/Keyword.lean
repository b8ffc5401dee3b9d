import Dockerfile.Text.UpperCase

/-!
# Keywords and topics

The instructions of a Dockerfile are known by eighteen keywords, written in any case. A topic is
something that documentation can be asked for: a keyword, or the `escape` directive. Topics go by
one name each, a keyword by its capitals and the directive by small letters.
-/

namespace Dockerfile

/-- The keywords of the instructions. -/
inductive Keyword
  | add
  | arg
  | cmd
  | copy
  | entrypoint
  | env
  | expose
  | «from»
  | healthcheck
  | label
  | maintainer
  | onbuild
  | run
  | shell
  | stopsignal
  | user
  | volume
  | workdir
deriving DecidableEq

namespace Keyword

/-- Every keyword, in alphabetical order. -/
def all : List Keyword :=
  [.add, .arg, .cmd, .copy, .entrypoint, .env, .expose, .from, .healthcheck, .label, .maintainer,
    .onbuild, .run, .shell, .stopsignal, .user, .volume, .workdir]

theorem mem_all (k : Keyword) : k ∈ all := by
  cases k <;> decide

/-- The keyword in capitals. -/
def name : Keyword → List Char
  | .add => "ADD".toList
  | .arg => "ARG".toList
  | .cmd => "CMD".toList
  | .copy => "COPY".toList
  | .entrypoint => "ENTRYPOINT".toList
  | .env => "ENV".toList
  | .expose => "EXPOSE".toList
  | .from => "FROM".toList
  | .healthcheck => "HEALTHCHECK".toList
  | .label => "LABEL".toList
  | .maintainer => "MAINTAINER".toList
  | .onbuild => "ONBUILD".toList
  | .run => "RUN".toList
  | .shell => "SHELL".toList
  | .stopsignal => "STOPSIGNAL".toList
  | .user => "USER".toList
  | .volume => "VOLUME".toList
  | .workdir => "WORKDIR".toList

/-- The keyword of a name in capitals. -/
def ofName? (s : List Char) : Option Keyword := all.find? (·.name == s)

theorem ofName?_name (k : Keyword) : ofName? k.name = some k := by
  cases k <;> decide

theorem name_of_ofName? {s : List Char} {k : Keyword} (h : ofName? s = some k) : k.name = s := by
  simpa using List.find?_some h

/-- The keyword that a word stands for, whatever its case. -/
def ofWord? (s : List Char) : Option Keyword := ofName? (upperCase s)

end Keyword

/-- The name of the one directive that is known. -/
def escapeName : List Char := "escape".toList

/-- Something that documentation can be asked for. -/
inductive Topic
  | keyword (k : Keyword)
  | escape
deriving DecidableEq

namespace Topic

/-- Every topic. -/
def all : List Topic := Keyword.all.map .keyword ++ [.escape]

theorem mem_all (t : Topic) : t ∈ all := by
  cases t with
  | keyword k => simp [all, Keyword.mem_all]
  | escape => simp [all]

/-- The name of a topic. -/
def name : Topic → List Char
  | .keyword k => k.name
  | .escape => escapeName

/-- The topic of a name, which must be written exactly so. -/
def ofName? (s : List Char) : Option Topic := all.find? (·.name == s)

theorem name_of_ofName? {s : List Char} {t : Topic} (h : ofName? s = some t) : t.name = s := by
  simpa using List.find?_some h

end Topic

end Dockerfile
