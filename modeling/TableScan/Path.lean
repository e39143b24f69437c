namespace TableScan.Path

def split (c : Char) : List Char → List (List Char)
  | [] => [[]]
  | x :: xs =>
    if x = c then [] :: split c xs
    else
      match split c xs with
      | [] => [[x]]
      | piece :: rest => (x :: piece) :: rest

def splitOnce? (c : Char) (cs : List Char) : Option (List Char × List Char) :=
  match cs.dropWhile (· ≠ c) with
  | [] => none
  | _ :: rest => some (cs.takeWhile (· ≠ c), rest)

def parts (path : String) : List String :=
  ((split '/' path.toList).filter (· ≠ [])).map String.ofList

def directories (path : String) : List String := (parts path).dropLast

def baseName (path : String) : String :=
  String.ofList ((split '/' path.toList).getLast?.getD [])

def dropSlashes (cs : List Char) : List Char := cs.dropWhile (· = '/')

def trim (path : String) : String :=
  String.ofList (dropSlashes (dropSlashes path.toList).reverse).reverse

def below? (directory path : String) : Option String :=
  let opening := directory.toList ++ ['/']
  if opening.isPrefixOf path.toList then some (String.ofList (path.toList.drop opening.length))
  else none

def step (way : Option (List String)) (name : String) : Option (List String) := do
  let way ← way
  if name = "." then some way
  else if name = ".." then if way = [] then none else some way.dropLast
  else some (way ++ [name])

/-- The way from the working directory to a relative path, unless it leaves the directory. -/
def resolve? (path : String) : Option String :=
  if path = "" ∨ path.toList.head? = some '/' then none
  else ("/".intercalate ·) <$> (parts path).foldl step (some [])

end TableScan.Path
