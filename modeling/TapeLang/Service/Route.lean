/-!
What the service offers, and where.

Paths are compared as octets.  A path that leads nowhere is tried again without the slashes at its
end, and a line feed at the end of a path is overlooked.
-/

namespace TapeLang.Service

/-- What the service has to offer. -/
inductive Route where
  | listing
  | run
  /-- A page that describes the service. -/
  | page
  deriving DecidableEq, Repr

/-- Where it is offered. -/
def routes : List (String × Route) :=
  [("/api/translate", .listing), ("/api/run", .run), ("/openapi.json", .page), ("/docs", .page),
   ("/docs/oauth2-redirect", .page), ("/redoc", .page)]

/-- The route with a path; a line feed at the end of the path is overlooked. -/
def findRoute? (octets : List UInt8) : Option Route :=
  (routes.find? fun (path, _) =>
    let expected := path.toUTF8.data.toList
    octets == expected || octets == expected ++ [0x0a]).map (·.2)

/-- The route a path leads to, with or without slashes behind it. -/
def route? (octets : List UInt8) : Option Route :=
  (findRoute? octets).or
    (findRoute? (octets.reverse.dropWhile (· == 0x2f)).reverse)

/-- The methods that a route knows. -/
def Route.methods : Route → List String
  | .page => ["GET", "HEAD"]
  | _ => ["POST"]

end TapeLang.Service
