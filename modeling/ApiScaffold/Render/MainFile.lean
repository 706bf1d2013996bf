import ApiScaffold.Render.ServiceFile

/-!
# The main file

The file that imports every controller and starts the application with them.
-/

namespace ApiScaffold.Render

/-- The line that imports the class of a controller. -/
def controllerImport (settings : Settings) (c : Controller) : List Char :=
  valueImport [Naming.className c.name .controller]
    ("./controllers/" ++ Naming.fileName c.name .controller settings.extension)

/-- The main file of an application with the given controllers. -/
def mainFile (settings : Settings) (controllers : List Controller) : List Char :=
  fileOfLines <|
    valueImport ["Application"] settings.frameworkModule ::
    controllers.map (controllerImport settings) ++
    [[],
      "const app = new Application();".toList,
      [],
      "app.registerVersion(\x7b".toList,
      "  version: \"".toList ++ settings.apiVersion.toList ++ "\",".toList,
      "  controllers: [".toList ++
        commaList (controllers.map fun c => Naming.className c.name .controller) ++ "],".toList,
      "\x7d);".toList,
      [],
      "await app.listen();".toList]

end ApiScaffold.Render
