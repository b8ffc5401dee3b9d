import Dockerfile.Keyword

/-!
# Built-in documentation

For every topic a sentence or two about what the instruction or directive is for, and examples of
its use. Shown in Markdown, the examples are a block of code, which is indented by four spaces.
-/

namespace Dockerfile

/-- What is said about a topic. -/
structure TopicHelp where
  summary : String
  /-- Lines of a Dockerfile. -/
  examples : List String

namespace TopicHelp

/-- The help in Markdown. -/
def markdown (h : TopicHelp) : List Char :=
  h.summary.toList ++ '\n' :: h.examples.flatMap fun line => "\n    ".toList ++ line.toList

end TopicHelp

/-- The help on a keyword. -/
def Keyword.help : Keyword → TopicHelp
  | .add =>
    { summary := "Copy new files, directories or remote file URLs from `<src>` and add them "
        ++ "to the filesystem of the image at the path `<dest>`."
      examples := ["ADD hom* /mydir/"] }
  | .arg =>
    { summary := "Define a variable with an optional default value that users can pass at "
        ++ "build-time with `docker build --build-arg <varname>=<value>`."
      examples := ["ARG userName",
        "ARG testOutputDir=test"] }
  | .cmd =>
    { summary := "Provide defaults for an executing container. If an executable is not "
        ++ "specified, then `ENTRYPOINT` must be specified as well. There can only be one "
        ++ "`CMD` instruction in a Dockerfile."
      examples := ["CMD [ \"/bin/ls\", \"-l\" ]"] }
  | .copy =>
    { summary := "Copy new files or directories from `<src>` and add them to the filesystem "
        ++ "of the image at the path `<dest>`."
      examples := ["COPY hom* /mydir/"] }
  | .entrypoint =>
    { summary := "Configure the container to be run as an executable."
      examples := ["ENTRYPOINT [\"/opt/app/run.sh\", \"--port\", \"8080\"]"] }
  | .env =>
    { summary := "Set the environment variable `<key>` to the value `<value>`."
      examples := ["ENV buildTag=1.0"] }
  | .expose =>
    { summary := "Define the network ports that this container will listen on at runtime."
      examples := ["EXPOSE 8080",
        "EXPOSE 80 443 22",
        "EXPOSE 7000-8000"] }
  | .from =>
    { summary := "Set the base image to use for any subsequent instructions that follow."
      examples := ["FROM ubuntu:18.04"] }
  | .healthcheck =>
    { summary := "Define how Docker should test the container to check that it is still "
        ++ "working. Alternatively, disable the base image's `HEALTHCHECK` instruction. There "
        ++ "can only be one `HEALTHCHECK` instruction in a Dockerfile."
      examples := ["HEALTHCHECK --interval=10m --timeout=5s \\",
        "    CMD curl -f http://localhost/ || exit 1",
        "HEALTHCHECK NONE"] }
  | .label =>
    { summary := "Add metadata to an image."
      examples := ["LABEL version=\"1.0\""] }
  | .maintainer =>
    { summary := "Set the _Author_ field of the generated images. This instruction has been "
        ++ "deprecated in favor of `LABEL`."
      examples := ["MAINTAINER name"] }
  | .onbuild =>
    { summary := "Add a trigger instruction to an image. The instruction will be executed "
        ++ "when the image is used as the base of another build."
      examples := ["ONBUILD ADD . /opt/app/src/extensions/"] }
  | .run =>
    { summary := "Execute any commands on top of the current image as a new layer and "
        ++ "commit the results."
      examples := ["RUN apt-get update && apt-get install -y curl"] }
  | .shell =>
    { summary := "Override the default shell used for the shell form of commands."
      examples := ["SHELL [\"powershell\", \"-command\"]"] }
  | .stopsignal =>
    { summary := "Set the system call signal to use to send to the container to exit. "
        ++ "Signals can be valid unsigned numbers or a signal name in the `SIGNAME` format "
        ++ "such as `SIGKILL`."
      examples := ["STOPSIGNAL 9"] }
  | .user =>
    { summary := "Set the user name or UID to use when running the image in addition to any "
        ++ "subsequent `CMD`, `ENTRYPOINT`, or `RUN` instructions that follow it in the "
        ++ "Dockerfile."
      examples := ["USER daemon"] }
  | .volume =>
    { summary := "Create a mount point with the specified name and mark it as holding "
        ++ "externally mounted volumes from the native host or from other containers."
      examples := ["VOLUME [\"/data\"]"] }
  | .workdir =>
    { summary := "Set the working directory for any subsequent `ADD`, `COPY`, `CMD`, "
        ++ "`ENTRYPOINT`, or `RUN` instructions that follow it in the Dockerfile."
      examples := ["WORKDIR /path/to/workdir"] }

/-- The help on a topic. -/
def Topic.help : Topic → TopicHelp
  | .keyword k => k.help
  | .escape =>
    { summary := "Set the character used to escape characters and newlines in this "
        ++ "Dockerfile. If unspecified, the default escape character is `\\`."
      examples := ["#escape=`"] }

end Dockerfile
